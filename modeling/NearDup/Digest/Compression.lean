/-!
# The compression function of BLAKE3

Sixteen words of state are mixed with sixteen words of message in seven rounds. The state is kept as
four columns of four words; a round mixes each column with two words of the message, then each
diagonal with two more, and the message words change places between rounds.
-/

namespace NearDup.Digest

/-- Four words; a column or a diagonal of the state, or half a chaining value. -/
structure Quad where
  a : UInt32
  b : UInt32
  c : UInt32
  d : UInt32
  deriving DecidableEq, Repr

/-- A chaining value: eight words. -/
structure Chain where
  low : Quad
  high : Quad
  deriving DecidableEq, Repr

/-- The state of a compression, as four columns. -/
structure State where
  c0 : Quad
  c1 : Quad
  c2 : Quad
  c3 : Quad

/-- Sixteen words of message. -/
abbrev Message := Array UInt32

/-- The initial chaining value. -/
def initial : Chain :=
  ⟨⟨0x6A09E667, 0xBB67AE85, 0x3C6EF372, 0xA54FF53A⟩,
    ⟨0x510E527F, 0x9B05688C, 0x1F83D9AB, 0x5BE0CD19⟩⟩

/-! ## Rounds -/

def rotateRight (w : UInt32) (n : UInt32) : UInt32 := (w >>> n) ||| (w <<< (32 - n))

/-- Mixes four words of state with two words of message. -/
def mix (q : Quad) (x y : UInt32) : Quad :=
  let a := q.a + q.b + x
  let d := rotateRight (q.d ^^^ a) 16
  let c := q.c + d
  let b := rotateRight (q.b ^^^ c) 12
  let a := a + b + y
  let d := rotateRight (d ^^^ a) 8
  let c := c + d
  let b := rotateRight (b ^^^ c) 7
  ⟨a, b, c, d⟩

/-- Mixes the four columns with eight words of message, from the word `i` on. -/
def mixColumns (m : Message) (i : Nat) (s : State) : State :=
  ⟨mix s.c0 (m.getD i 0) (m.getD (i + 1) 0), mix s.c1 (m.getD (i + 2) 0) (m.getD (i + 3) 0),
   mix s.c2 (m.getD (i + 4) 0) (m.getD (i + 5) 0), mix s.c3 (m.getD (i + 6) 0) (m.getD (i + 7) 0)⟩

/-- Turns diagonals into columns. -/
def diagonals (s : State) : State :=
  ⟨⟨s.c0.a, s.c1.b, s.c2.c, s.c3.d⟩, ⟨s.c1.a, s.c2.b, s.c3.c, s.c0.d⟩,
   ⟨s.c2.a, s.c3.b, s.c0.c, s.c1.d⟩, ⟨s.c3.a, s.c0.b, s.c1.c, s.c2.d⟩⟩

/-- Turns columns back into diagonals. -/
def undiagonals (s : State) : State :=
  ⟨⟨s.c0.a, s.c3.b, s.c2.c, s.c1.d⟩, ⟨s.c1.a, s.c0.b, s.c3.c, s.c2.d⟩,
   ⟨s.c2.a, s.c1.b, s.c0.c, s.c3.d⟩, ⟨s.c3.a, s.c2.b, s.c1.c, s.c0.d⟩⟩

theorem undiagonals_diagonals (s : State) : undiagonals (diagonals s) = s := rfl

/-- One round. -/
def round (m : Message) (s : State) : State :=
  undiagonals (mixColumns m 8 (diagonals (mixColumns m 0 s)))

/-- Where the words of the next round's message come from. -/
def permutation : Array Nat := #[2, 6, 3, 10, 7, 0, 4, 13, 1, 11, 12, 5, 9, 14, 15, 8]

def permute (m : Message) : Message := permutation.map fun i => m.getD i 0

/-- `n` rounds, the message permuted after each. -/
def rounds : Nat → Message → State → State
  | 0, _, s => s
  | n + 1, m, s => rounds n (permute m) (round m s)

/-! ## Compression -/

def Quad.xor (p q : Quad) : Quad := ⟨p.a ^^^ q.a, p.b ^^^ q.b, p.c ^^^ q.c, p.d ^^^ q.d⟩

/-- The chaining value after a block of `length` bytes, which stands at place `counter`. -/
def compress (chain : Chain) (block : Message) (counter length flags : Nat) : Chain :=
  let tail : Quad :=
    ⟨.ofNat (counter % UInt32.size), .ofNat (counter / UInt32.size % UInt32.size), .ofNat length, .ofNat flags⟩
  let s := rounds 7 block
    ⟨⟨chain.low.a, chain.high.a, initial.low.a, tail.a⟩,
     ⟨chain.low.b, chain.high.b, initial.low.b, tail.b⟩,
     ⟨chain.low.c, chain.high.c, initial.low.c, tail.c⟩,
     ⟨chain.low.d, chain.high.d, initial.low.d, tail.d⟩⟩
  ⟨Quad.xor ⟨s.c0.a, s.c1.a, s.c2.a, s.c3.a⟩ ⟨s.c0.c, s.c1.c, s.c2.c, s.c3.c⟩,
   Quad.xor ⟨s.c0.b, s.c1.b, s.c2.b, s.c3.b⟩ ⟨s.c0.d, s.c1.d, s.c2.d, s.c3.d⟩⟩

end NearDup.Digest
