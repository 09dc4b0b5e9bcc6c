/-!
# Decimal digits

Whole numbers as decimal digits, written and read, and the grouping of digits by thousands.
-/

namespace NearDup.Number

/-- The character of a digit below ten. -/
def digitChar (d : Nat) : Char := Char.ofNat (0x30 + d)

def isDigit (c : Char) : Bool := 0x30 ≤ c.toNat && c.toNat ≤ 0x39

def digitValue (c : Char) : Nat := c.toNat - 0x30

theorem digitValue_digitChar {d : Nat} (h : d < 10) : digitValue (digitChar d) = d := by
  have hall : ∀ e ∈ List.range 10, digitValue (digitChar e) = e := by decide
  exact hall d (List.mem_range.mpr h)

theorem isDigit_digitChar {d : Nat} (h : d < 10) : isDigit (digitChar d) = true := by
  have hall : ∀ e ∈ List.range 10, isDigit (digitChar e) = true := by decide
  exact hall d (List.mem_range.mpr h)

/-- The decimal digits of `n`, at most `fuel` of them before `tail`. -/
def digitsBefore : Nat → Nat → List Char → List Char
  | 0, _, tail => tail
  | fuel + 1, n, tail =>
    if n < 10 then digitChar n :: tail
    else digitsBefore fuel (n / 10) (digitChar (n % 10) :: tail)

/-- The decimal digits of `n`, without leading zeros. The number of bits bounds their number. -/
def digits (n : Nat) : List Char := digitsBefore (n.log2 + 1) n []

/-- The number that a string of digits stands for, put behind `start`. -/
def ofDigits (start : Nat) (cs : List Char) : Nat :=
  cs.foldl (fun n c => n * 10 + digitValue c) start

/-- An optional sign: is it a minus, and what follows it. -/
def takeSign : List Char → Bool × List Char
  | '-' :: rest => (true, rest)
  | '+' :: rest => (false, rest)
  | cs => (false, cs)

/-- The decimal text of `n`. -/
def decimal (n : Nat) : String := String.ofList (digits n)

example : decimal 0 = "0" ∧ decimal 18446744073709551615 = "18446744073709551615" := by
  decide +kernel

/-! ## Reading what was written -/

theorem ofDigits_digitsBefore {fuel n : Nat} (tail : List Char) (h : n < Nat.pow 2 fuel) :
    ofDigits 0 (digitsBefore fuel n tail) = ofDigits n tail := by
  induction fuel generalizing n tail with
  | zero =>
    have : n = 0 := by simpa using h
    simp [digitsBefore, this]
  | succ fuel ih =>
    simp only [digitsBefore]
    split
    · next hn => simp [ofDigits, digitValue_digitChar hn]
    · next hn =>
      have hlt : n / 10 < Nat.pow 2 fuel := by
        have : n < Nat.pow 2 fuel * 2 := h
        omega
      rw [ih _ hlt, ofDigits, List.foldl_cons, digitValue_digitChar (by omega),
        show n / 10 * 10 + n % 10 = n by omega, ofDigits]

theorem ofDigits_digits (n : Nat) : ofDigits 0 (digits n) = n := by
  simpa [digits, ofDigits] using ofDigits_digitsBefore (n := n) [] Nat.lt_log2_self

theorem isDigit_of_mem_digitsBefore {fuel n : Nat} {tail : List Char} {c : Char}
    (h : c ∈ digitsBefore fuel n tail) : isDigit c = true ∨ c ∈ tail := by
  induction fuel generalizing n tail with
  | zero => exact Or.inr (by simpa [digitsBefore] using h)
  | succ fuel ih =>
    simp only [digitsBefore] at h
    split at h
    · next hn =>
      rcases List.mem_cons.1 h with rfl | h
      · exact Or.inl (isDigit_digitChar hn)
      · exact Or.inr h
    · rcases ih h with h | h
      · exact Or.inl h
      · rcases List.mem_cons.1 h with rfl | h
        · exact Or.inl (isDigit_digitChar (by omega))
        · exact Or.inr h

theorem isDigit_of_mem_digits {n : Nat} {c : Char} (h : c ∈ digits n) : isDigit c = true := by
  rcases isDigit_of_mem_digitsBefore h with h | h
  · exact h
  · simp at h

/-! ## Thousands -/

/-- Puts a comma before each digit that has a positive multiple of three digits from itself to the
end, unless it is the first. -/
def groupedFrom : Bool → List Char → List Char
  | _, [] => []
  | first, c :: rest =>
    if !first && (rest.length + 1) % 3 = 0 then ',' :: c :: groupedFrom false rest
    else c :: groupedFrom false rest

/-- The decimal text of `n` with its digits grouped by thousands. -/
def grouped (n : Nat) : String := String.ofList (groupedFrom true (digits n))

example : grouped 1234567 = "1,234,567" ∧ grouped 999 = "999" ∧ grouped 1000 = "1,000" := by
  decide +kernel

end NearDup.Number
