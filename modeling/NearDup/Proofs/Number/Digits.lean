import Mathlib.Data.List.Basic
import Mathlib.Tactic.Ring
import NearDup.Number.Digits

/-!
# How many digits a number has

The digits of a number are those of its tenth and one more. So a number with `k` digits is below
10^k, and not below 10^(k - 1) unless it is zero; and only zero begins with a zero.

* `digits_of_ge` — one more digit than a tenth has
* `lt_pow_length_digits`, `pow_length_digits_le` — the number of digits of a number
* `ofDigits_append` — digits are read from left to right
-/

namespace NearDup.Number

variable {n fuel fuel' : Nat} {cs ds : List Char}

/-! ## Writing -/

theorem digitsBefore_append (fuel n : Nat) (tail : List Char) :
    digitsBefore fuel n tail = digitsBefore fuel n [] ++ tail := by
  induction fuel generalizing n tail with
  | zero => rfl
  | succ fuel ih =>
    simp only [digitsBefore]
    split
    · rfl
    · rw [ih _ (_ :: tail), ih _ [_], List.append_assoc]
      rfl

theorem log2_div_ten_lt (h : 10 ≤ n) : (n / 10).log2 < n.log2 := by
  have hlog : 1 ≤ n.log2 := (Nat.le_log2 (by omega)).2 (by omega)
  have hlt : n / 10 < 2 ^ n.log2 := by
    have hn : n < 2 ^ (n.log2 + 1) := Nat.lt_log2_self
    rw [pow_succ] at hn
    omega
  exact (Nat.log2_lt (by omega)).2 hlt

/-- Enough fuel is enough. -/
theorem digitsBefore_eq_of_lt (h : n.log2 < fuel) (h' : n.log2 < fuel') (tail : List Char) :
    digitsBefore fuel n tail = digitsBefore fuel' n tail := by
  induction fuel generalizing n fuel' tail with
  | zero => omega
  | succ fuel ih =>
    cases fuel' with
    | zero => omega
    | succ fuel' =>
      simp only [digitsBefore]
      split
      · rfl
      · next hn =>
        have hlt := log2_div_ten_lt (n := n) (by omega)
        exact ih (by omega) (by omega) _

theorem digits_of_lt (h : n < 10) : digits n = [digitChar n] := by
  simp [digits, digitsBefore, h]

/-- The digits of a number are those of its tenth and one more. -/
theorem digits_of_ge (h : 10 ≤ n) : digits n = digits (n / 10) ++ [digitChar (n % 10)] := by
  have hlt := log2_div_ten_lt h
  rw [digits, digitsBefore, if_neg (by omega), digitsBefore_append, digits,
    digitsBefore_eq_of_lt hlt (Nat.lt_succ_self _)]

/-- What holds of one digit, and of a number if it holds of its tenth, holds of all numbers. -/
theorem digits_induction {P : Nat → Prop} (one : ∀ n < 10, P n)
    (more : ∀ n, 10 ≤ n → P (n / 10) → P n) (n : Nat) : P n := by
  induction n using Nat.strongRecOn with
  | ind n ih =>
    by_cases h : n < 10
    · exact one n h
    · exact more n (by omega) (ih _ (by omega))

/-! ## The number of digits -/

theorem length_digits_pos (n : Nat) : 0 < (digits n).length := by
  induction n using digits_induction with
  | one n h => simp [digits_of_lt h]
  | more n h ih => simp [digits_of_ge h]

theorem lt_pow_length_digits (n : Nat) : n < 10 ^ (digits n).length := by
  induction n using digits_induction with
  | one n h => simpa [digits_of_lt h] using h
  | more n h ih =>
    rw [digits_of_ge h, List.length_append, List.length_singleton, pow_succ]
    omega

theorem pow_length_digits_le (hn : 0 < n) : 10 ^ ((digits n).length - 1) ≤ n := by
  induction n using digits_induction with
  | one n h =>
    rw [digits_of_lt h]
    exact hn
  | more n h ih =>
    obtain ⟨k, hk⟩ := Nat.exists_eq_add_one.2 (length_digits_pos (n / 10))
    have htenth := ih (by omega)
    rw [hk, Nat.add_sub_cancel] at htenth
    rw [digits_of_ge h, List.length_append, List.length_singleton, Nat.add_sub_cancel, hk, pow_succ]
    omega

/-- A number below 10^k has at most `k` digits. -/
theorem length_digits_le {k : Nat} (hk : 0 < k) (h : n < 10 ^ k) : (digits n).length ≤ k := by
  rcases Nat.eq_zero_or_pos n with rfl | hn
  · rw [digits_of_lt (by decide)]
    exact hk
  · have hlt : 10 ^ ((digits n).length - 1) < 10 ^ k := (pow_length_digits_le hn).trans_lt h
    have := (Nat.pow_lt_pow_iff_right (by decide)).1 hlt
    omega

/-- A number from 10^k on has more than `k` digits. -/
theorem lt_length_digits {k : Nat} (h : 10 ^ k ≤ n) : k < (digits n).length :=
  (Nat.pow_lt_pow_iff_right (by decide)).1 (h.trans_lt (lt_pow_length_digits n))

/-- The length of the digits of a number says between which powers of ten it is. -/
theorem length_digits_eq {k : Nat} (hl : 10 ^ k ≤ n) (hu : n < 10 ^ (k + 1)) :
    (digits n).length = k + 1 :=
  Nat.le_antisymm (length_digits_le (Nat.succ_pos k) hu) (lt_length_digits hl)

theorem length_digits_mul_pow (hn : 0 < n) (k : Nat) :
    (digits (n * 10 ^ k)).length = (digits n).length + k := by
  induction k with
  | zero => rw [pow_zero, Nat.mul_one, Nat.add_zero]
  | succ k ih =>
    have hpos : 0 < n * 10 ^ k := Nat.mul_pos hn (Nat.pow_pos (by decide))
    rw [pow_succ, ← Nat.mul_assoc, digits_of_ge (by omega), Nat.mul_div_cancel _ (by decide),
      List.length_append, ih]
    rfl

/-- Only zero begins with a zero. -/
theorem head?_digits (hn : 0 < n) : (digits n).head? ≠ some '0' := by
  induction n using digits_induction with
  | one n h =>
    have hall : ∀ d ∈ List.range 10, 0 < d → digitChar d ≠ '0' := by decide
    rw [digits_of_lt h]
    simpa using hall n (List.mem_range.2 h) hn
  | more n h ih =>
    have hne := List.ne_nil_of_length_pos (length_digits_pos (n / 10))
    rw [digits_of_ge h, List.head?_append_of_ne_nil _ hne]
    exact ih (by omega)

/-! ## Reading -/

theorem ofDigits_append (start : Nat) (cs ds : List Char) :
    ofDigits start (cs ++ ds) = ofDigits (ofDigits start cs) ds := List.foldl_append

theorem le_ofDigits (start : Nat) (cs : List Char) : start ≤ ofDigits start cs := by
  induction cs generalizing start with
  | nil => exact Nat.le_refl _
  | cons c cs ih =>
    refine Nat.le_trans ?_ (ih (start * 10 + digitValue c))
    omega

/-- Fewer digits stand for a smaller number. -/
theorem ofDigits_le_append (start : Nat) (cs ds : List Char) :
    ofDigits start cs ≤ ofDigits start (cs ++ ds) := by
  rw [ofDigits_append]
  exact le_ofDigits _ _

theorem ofDigits_replicate_zero (k : Nat) (cs : List Char) :
    ofDigits 0 (List.replicate k '0' ++ cs) = ofDigits 0 cs := by
  induction k with
  | zero => rfl
  | succ k ih =>
    rw [List.replicate_succ, List.cons_append, ofDigits, List.foldl_cons]
    exact ih

/-- So many digits stand for a number below the power of ten. -/
theorem ofDigits_lt (h : ∀ c ∈ cs, isDigit c = true) (start : Nat) :
    ofDigits start cs < (start + 1) * 10 ^ cs.length := by
  induction cs generalizing start with
  | nil => simp [ofDigits]
  | cons c cs ih =>
    obtain ⟨hc, hcs⟩ := List.forall_mem_cons.1 h
    have hvalue : digitValue c < 10 := by
      simp only [isDigit, Bool.and_eq_true, decide_eq_true_eq] at hc
      unfold digitValue
      omega
    calc ofDigits start (c :: cs) = ofDigits (start * 10 + digitValue c) cs := rfl
      _ < (start * 10 + digitValue c + 1) * 10 ^ cs.length := ih hcs _
      _ ≤ ((start + 1) * 10) * 10 ^ cs.length := Nat.mul_le_mul_right _ (by omega)
      _ = (start + 1) * 10 ^ (c :: cs).length := by rw [List.length_cons]; ring

end NearDup.Number
