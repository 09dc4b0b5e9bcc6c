import NearDup.Digest.Compression

/-!
# The hash tree of BLAKE3

The bytes are cut into chunks of 1024 and each chunk into blocks of 64. The blocks of a chunk are
compressed one after the other; the chunks are the leaves of a binary tree in which neighbours are
paired level by level, a last one without a neighbour moving up as it is. The compression at the
root is marked as such, so a node is kept uncompressed until its place is known.
-/

namespace NearDup.Digest

def chunkStart : Nat := 1
def chunkEnd : Nat := 2
def parentFlag : Nat := 4
def rootFlag : Nat := 8

/-- A compression that is still to be done. -/
structure Node where
  chain : Chain
  block : Message
  counter : Nat
  length : Nat
  flags : Nat

/-- The chaining value of an inner node. -/
def Node.value (n : Node) : Chain := compress n.chain n.block n.counter n.length n.flags

/-- The result of a node that is the root. -/
def Node.root (n : Node) : Chain := compress n.chain n.block n.counter n.length (n.flags + rootFlag)

/-! ## Cutting -/

/-- Cuts a list into pieces of `size`, the last one possibly shorter; `fuel` bounds their number. -/
def cut {α : Type} (size : Nat) : Nat → List α → List (List α)
  | 0, _ => []
  | _, [] => []
  | fuel + 1, x :: xs => (x :: xs).take size :: cut size fuel ((x :: xs).drop size)

/-- Little-endian words; missing bytes are zero. -/
def wordsOf : List UInt8 → List UInt32
  | a :: b :: c :: d :: rest =>
    .ofNat (a.toNat + b.toNat * 2 ^ 8 + c.toNat * 2 ^ 16 + d.toNat * 2 ^ 24) :: wordsOf rest
  | [a, b, c] => [.ofNat (a.toNat + b.toNat * 2 ^ 8 + c.toNat * 2 ^ 16)]
  | [a, b] => [.ofNat (a.toNat + b.toNat * 2 ^ 8)]
  | [a] => [.ofNat a.toNat]
  | [] => []

/-- A block as a message; words beyond its end read as zero. -/
def messageOf (block : List UInt8) : Message := (wordsOf block).toArray

/-! ## Chunks -/

/-- The node of a chunk, from its blocks. The first block carries `flags`. -/
def chunkNode (counter flags : Nat) (chain : Chain) : List (List UInt8) → Node
  | [] => ⟨chain, #[], counter, 0, flags + chunkEnd⟩
  | [last] => ⟨chain, messageOf last, counter, last.length, flags + chunkEnd⟩
  | block :: next :: rest =>
    chunkNode counter 0 (compress chain (messageOf block) counter block.length flags) (next :: rest)

/-- The leaves, numbered from `counter`. -/
def leaves : Nat → List (List UInt8) → List Node
  | _, [] => []
  | counter, chunk :: rest =>
    chunkNode counter chunkStart initial (cut 64 chunk.length chunk) :: leaves (counter + 1) rest

/-! ## The tree -/

def Quad.toList (q : Quad) : List UInt32 := [q.a, q.b, q.c, q.d]

def Chain.toList (c : Chain) : List UInt32 := c.low.toList ++ c.high.toList

/-- The node above two nodes. -/
def parent (left right : Node) : Node :=
  ⟨initial, (left.value.toList ++ right.value.toList).toArray, 0, 64, parentFlag⟩

/-- Pairs neighbours; the last of an odd number stays. -/
def pairUp : List Node → List Node
  | left :: right :: rest => parent left right :: pairUp rest
  | other => other

/-- Pairs level by level, at most `fuel` times, until one node is left. -/
def topNode : Nat → List Node → Node
  | _, [] => chunkNode 0 chunkStart initial []
  | _, [top] => top
  | 0, first :: _ => first
  | fuel + 1, nodes => topNode fuel (pairUp nodes)

/-- The eight words of the hash of some bytes. -/
def hash (bytes : List UInt8) : Chain :=
  let nodes := leaves 0 (cut 1024 bytes.length bytes)
  (topNode nodes.length nodes).root

end NearDup.Digest
