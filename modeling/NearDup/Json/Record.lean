import NearDup.Json.Reader

/-!
# Reading records

A record is written as an object with the fields by name, in any order and with unknown fields
among them, or as an array of exactly its fields in their order. A field that comes twice is
noticed at its second key, a missing one at the end of the object.

What has been read of a record so far is a value of a type `π` of its own, with an optional place
for each field.
-/

namespace NearDup.Json

/-- A field of a record: its name, whether it has been read already, and how it is read. -/
structure Member (π : Type) where
  name : String
  isFilled : π → Bool
  fill : π → Reader π

/-- A field with a place in `π`. -/
def Member.make {π β : Type} (name : String) (get : π → Option β) (set : π → β → π)
    (reader : Reader β) : Member π :=
  { name
    isFilled := fun p => (get p).isSome
    fill := fun p cs => do
      let (b, rest) ← reader cs
      return (set p b, rest) }

namespace Reader

/-! ## By name -/

/-- Where an object goes on: at its end, or behind the opening quote of the next key. -/
def nextKey (first : Bool) (cs : List Char) : Except Defect (Option (List Char)) := do
  let (c, rest) ← nextChar cs
  if c = '\x7d' then return none
  if first then return some (← mark '"' cs)
  if c ≠ ',' then throw .malformed
  return some (← mark '"' rest)

/-- Reads the value of a key into its field, or over it. -/
def keyedValue {π : Type} (fields : List (Member π)) (p : π) (key : List Char) (cs : List Char) :
    Except Defect (π × List Char) := do
  match fields.find? (·.name.toList = key) with
  | some f =>
    if f.isFilled p then throw .mismatch
    f.fill p (← mark ':' cs)
  | none => return (p, ← skipValue (← mark ':' cs))

/-- The value of what has been read, if it is all there. -/
def finished {π α : Type} (finish : π → Option α) (p : π) : Except Defect α :=
  match finish p with
  | some a => return a
  | none => throw .mismatch

/-- The fields of an object up to its end, at most `fuel` of them. -/
def keyed {π α : Type} (fields : List (Member π)) (finish : π → Option α) :
    Nat → Bool → π → Reader α
  | 0, _, _, _ => throw .cutShort
  | fuel + 1, first, p, cs => do
    match ← nextKey first cs with
    | none =>
      let a ← finished finish p
      return (a, ← mark '\x7d' cs)
    | some cs =>
      let (key, rest) ← readString true .plain cs
      let (p, rest) ← keyedValue fields p key rest
      keyed fields finish fuel false p rest

/-! ## By place -/

/-- The fields of an array in order, and then its end. -/
def positional {π α : Type} (finish : π → Option α) : List (Member π) → Bool → π → Reader α
  | [], _, p, cs => do
    let rest ← mark ']' cs
    return (← finished finish p, rest)
  | f :: fields, first, p, cs => do
    match ← nextItem first cs with
    | none => throw .mismatch
    | some cs =>
      let (p, rest) ← f.fill p cs
      positional finish fields false p rest

/-! ## Either way -/

/-- A record, from nothing read so far. A field takes up text, so the text bounds their number. -/
def record {π α : Type} (fields : List (Member π)) (empty : π) (finish : π → Option α) : Reader α :=
  fun cs =>
    match skipBlanks cs with
    | '\x7b' :: rest => keyed fields finish (rest.length + 1) true empty rest
    | '[' :: rest => positional finish fields true empty rest
    | other => throw (wrongType other)

/-- The value of a name. -/
def valueOf {α : Type} (names : List (String × α)) (name : String) : Except Defect α :=
  match names.lookup name with
  | some a => return a
  | none => throw .mismatch

/-- One of several names, written as a string or as an object with the name as key and null as its
value. -/
def oneOf {α : Type} (names : List (String × α)) : Reader α := fun cs => do
  match skipBlanks cs with
  | [] => throw .cutShort
  | '"' :: rest =>
    let (name, rest) ← text ('"' :: rest)
    return (← valueOf names name, rest)
  | '\x7b' :: rest =>
    let (name, rest) ← text rest
    let a ← valueOf names name
    let (_, rest) ← null (← mark ':' rest)
    return (a, ← mark '\x7d' rest)
  | _ => throw .malformed

end Reader

end NearDup.Json
