/-!
# UTF-8

Texts are written to files as UTF-8 and read back in two ways: strictly, where a byte sequence that
is no UTF-8 is refused, and leniently, where each ill-formed stretch reads as U+FFFD. A stretch is a
longest run of bytes that could still have begun a character, or else one single byte.

## How it works

`scan` goes through the bytes once. Between characters its state is `none`; inside one it is the
continuation bytes owed, the range the next of them has to lie in, and the bits read so far. The
ranges are the ones that leave out overlong forms, surrogates and code points above U+10FFFF. What
comes out is `some c` for a character and `none` for an ill-formed stretch.
-/

namespace NearDup.Text.Utf8

/-! ## Writing -/

/-- The bytes of one character. -/
def encodeChar (c : Char) : List UInt8 :=
  let n := c.toNat
  if n < 0x80 then [.ofNat n]
  else if n < 0x800 then [.ofNat (0xC0 + n / 64), .ofNat (0x80 + n % 64)]
  else if n < 0x10000 then
    [.ofNat (0xE0 + n / 4096), .ofNat (0x80 + n / 64 % 64), .ofNat (0x80 + n % 64)]
  else
    [.ofNat (0xF0 + n / 262144), .ofNat (0x80 + n / 4096 % 64), .ofNat (0x80 + n / 64 % 64),
     .ofNat (0x80 + n % 64)]

def encodeChars (cs : List Char) : List UInt8 := cs.flatMap encodeChar

def encode (s : String) : List UInt8 := encodeChars s.toList

/-- The length of a text in bytes. -/
def size (s : String) : Nat := (encode s).length

/-! ## Scanning -/

/-- A character begun: how many continuation bytes are owed (one more than `further`), the range of
the next one, and the value of the bits so far. -/
structure Pending where
  further : Nat
  low : Nat
  high : Nat
  value : Nat

/-- What a byte that stands first is: a character or a stray byte of its own, or the beginning of a
longer character. -/
inductive Lead
  | whole (c : Option Char)
  | more (p : Pending)

def lead (b : UInt8) : Lead :=
  let n := b.toNat
  if n < 0x80 then .whole (some (Char.ofNat n))
  else if n < 0xC2 then .whole none
  else if n < 0xE0 then .more ⟨0, 0x80, 0xBF, n - 0xC0⟩
  else if n = 0xE0 then .more ⟨1, 0xA0, 0xBF, 0⟩
  else if n = 0xED then .more ⟨1, 0x80, 0x9F, 0xD⟩
  else if n < 0xF0 then .more ⟨1, 0x80, 0xBF, n - 0xE0⟩
  else if n = 0xF0 then .more ⟨2, 0x90, 0xBF, 0⟩
  else if n < 0xF4 then .more ⟨2, 0x80, 0xBF, n - 0xF0⟩
  else if n = 0xF4 then .more ⟨2, 0x80, 0x8F, 4⟩
  else .whole none

/-- The characters and the ill-formed stretches of a byte sequence, in order. -/
def scan : Option Pending → List UInt8 → List (Option Char)
  | none, [] => []
  | some _, [] => [none]
  | none, b :: rest =>
    match lead b with
    | .whole c => c :: scan none rest
    | .more p => scan (some p) rest
  | some p, b :: rest =>
    if p.low ≤ b.toNat ∧ b.toNat ≤ p.high then
      let value := p.value * 64 + (b.toNat - 0x80)
      match p.further with
      | 0 => some (Char.ofNat value) :: scan none rest
      | k + 1 => scan (some ⟨k, 0x80, 0xBF, value⟩) rest
    else
      none :: match lead b with
        | .whole c => c :: scan none rest
        | .more p => scan (some p) rest

/-! ## Reading -/

/-- The character U+FFFD, which stands for an ill-formed stretch. -/
def replacement : Char := '\uFFFD'

/-- Reads leniently. -/
def decodeLenient (bytes : List UInt8) : String :=
  String.ofList ((scan none bytes).map fun c => c.getD replacement)

/-- All the values, if each is there. -/
def allSome {α : Type} : List (Option α) → Option (List α)
  | [] => some []
  | none :: _ => none
  | some a :: rest => (allSome rest).map (a :: ·)

/-- Reads strictly; `none` if any stretch is ill-formed. -/
def decode? (bytes : List UInt8) : Option String := (allSome (scan none bytes)).map String.ofList

example : decodeLenient [0x61, 0xFF, 0xE2, 0x82, 0x41, 0xED, 0xA0, 0x80] =
    "a\uFFFD\uFFFDA\uFFFD\uFFFD\uFFFD" := by decide
example : decode? [0xC3, 0xA9] = some "é" ∧ decode? [0xC3] = none := by decide

/-! ## Reading what was written -/

theorem toNat_ofNat_lt {n : Nat} (h : n < 256) : (UInt8.ofNat n).toNat = n := by
  simpa using h

/-- Code points lie outside the surrogates. -/
theorem toNat_valid (c : Char) : c.toNat < 0xD800 ∨ 0xDFFF < c.toNat ∧ c.toNat < 0x110000 := c.valid

theorem ofNat_toNat (c : Char) : Char.ofNat c.toNat = c := Char.ofNat_toNat c

/-- Scanning a written character gives that character and goes on behind it. -/
theorem scan_encodeChar (c : Char) (rest : List UInt8) :
    scan none (encodeChar c ++ rest) = some c :: scan none rest := by
  have hv := toNat_valid c
  have hc := ofNat_toNat c
  generalize hn : c.toNat = n at hv hc
  unfold encodeChar
  rw [hn]
  simp only
  split
  · next h =>
    simp [scan, lead, toNat_ofNat_lt (n := n) (by omega), h, hc]
  · split
    · next h1 h2 =>
      have e1 := toNat_ofNat_lt (n := 0xC0 + n / 64) (by omega)
      have e2 := toNat_ofNat_lt (n := 0x80 + n % 64) (by omega)
      have l1 : lead (.ofNat (0xC0 + n / 64)) = .more ⟨0, 0x80, 0xBF, n / 64⟩ := by
        unfold lead; rw [e1]; grind
      simp only [List.cons_append, List.nil_append, scan, l1, e2]
      rw [if_pos (by omega)]
      simp only [List.cons.injEq, and_true]
      rw [show n / 64 * 64 + (0x80 + n % 64 - 0x80) = n by omega, hc]
    · split
      · next h1 h2 h3 =>
        have e1 := toNat_ofNat_lt (n := 0xE0 + n / 4096) (by omega)
        have e2 := toNat_ofNat_lt (n := 0x80 + n / 64 % 64) (by omega)
        have e3 := toNat_ofNat_lt (n := 0x80 + n % 64) (by omega)
        have l1 : ∃ low high, lead (.ofNat (0xE0 + n / 4096)) = .more ⟨1, low, high, n / 4096⟩ ∧
            low ≤ 0x80 + n / 64 % 64 ∧ 0x80 + n / 64 % 64 ≤ high := by
          unfold lead; rw [e1]
          by_cases ha : n / 4096 = 0
          · exact ⟨0xA0, 0xBF, by simp [ha], by omega, by omega⟩
          · by_cases hb : n / 4096 = 0xD
            · exact ⟨0x80, 0x9F, by simp [hb], by omega, by omega⟩
            · refine ⟨0x80, 0xBF, ?_, by omega, by omega⟩
              grind
        obtain ⟨low, high, l1, hl, hh⟩ := l1
        simp only [List.cons_append, List.nil_append, scan, l1, e2, e3]
        rw [if_pos ⟨hl, hh⟩, if_pos (by omega)]
        simp only [List.cons.injEq, and_true]
        rw [show (n / 4096 * 64 + (0x80 + n / 64 % 64 - 0x80)) * 64 + (0x80 + n % 64 - 0x80) = n by
          omega, hc]
      · next h1 h2 h3 =>
        have e1 := toNat_ofNat_lt (n := 0xF0 + n / 262144) (by omega)
        have e2 := toNat_ofNat_lt (n := 0x80 + n / 4096 % 64) (by omega)
        have e3 := toNat_ofNat_lt (n := 0x80 + n / 64 % 64) (by omega)
        have e4 := toNat_ofNat_lt (n := 0x80 + n % 64) (by omega)
        have l1 : ∃ low high, lead (.ofNat (0xF0 + n / 262144)) = .more ⟨2, low, high, n / 262144⟩ ∧
            low ≤ 0x80 + n / 4096 % 64 ∧ 0x80 + n / 4096 % 64 ≤ high := by
          unfold lead; rw [e1]
          by_cases ha : n / 262144 = 0
          · exact ⟨0x90, 0xBF, by simp [ha], by omega, by omega⟩
          · by_cases hb : n / 262144 = 4
            · exact ⟨0x80, 0x8F, by simp [hb], by omega, by omega⟩
            · refine ⟨0x80, 0xBF, ?_, by omega, by omega⟩
              grind
        obtain ⟨low, high, l1, hl, hh⟩ := l1
        simp only [List.cons_append, List.nil_append, scan, l1, e2, e3, e4]
        rw [if_pos ⟨hl, hh⟩, if_pos (by omega), if_pos (by omega)]
        simp only [List.cons.injEq, and_true]
        rw [show ((n / 262144 * 64 + (0x80 + n / 4096 % 64 - 0x80)) * 64 +
          (0x80 + n / 64 % 64 - 0x80)) * 64 + (0x80 + n % 64 - 0x80) = n by omega, hc]

theorem scan_encodeChars_append (cs : List Char) (rest : List UInt8) :
    scan none (encodeChars cs ++ rest) = cs.map some ++ scan none rest := by
  induction cs with
  | nil => rfl
  | cons c cs ih =>
    rw [encodeChars, List.flatMap_cons, List.append_assoc, scan_encodeChar]
    simpa [encodeChars] using ih

theorem scan_encodeChars (cs : List Char) : scan none (encodeChars cs) = cs.map some := by
  simpa [scan] using scan_encodeChars_append cs []

theorem allSome_map_some {α : Type} (xs : List α) : allSome (xs.map some) = some xs := by
  induction xs with
  | nil => rfl
  | cons x xs ih => simp [allSome, ih]

/-- What was written reads back strictly. -/
theorem decode?_encode (s : String) : decode? (encode s) = some s := by
  simp [decode?, encode, scan_encodeChars, allSome_map_some]

/-- What was written reads back leniently. -/
theorem decodeLenient_encode (s : String) : decodeLenient (encode s) = s := by
  simp [decodeLenient, encode, scan_encodeChars, Function.comp_def]

end NearDup.Text.Utf8
