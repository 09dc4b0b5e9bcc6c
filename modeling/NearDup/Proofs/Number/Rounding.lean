import Mathlib.Order.Monotone.Basic
import Mathlib.Tactic.Ring
import NearDup.Number.Binary64

/-!
# Rounding keeps the order

The values of the ranks grow, and a step is at least 2⁻⁵³ of the value that it leads to. A greater
quotient is not rounded to a lesser rank: with the same shift the nearest whole number does not
fall, and a greater shift starts where the lesser one ends.

* `units_succ`, `units_succ_le` — the step from one rank to the next
* `roundQuotient_mono` — rounding keeps the order
* `ofRatio_lt_one` — a quotient of counts below one stays below one
* `isFinite_mul_of_le` — a product that is finite stays so with lesser factors
-/

namespace NearDup.Binary64

variable {n n' d q r r' : Nat}

/-! ## Values -/

theorem ranksPerExponent_eq : ranksPerExponent = 2 ^ 52 := rfl

theorem unitsPerOne_pos : 0 < unitsPerOne := by decide +kernel

/-- The units between a rank and the next one. -/
def gap (rank : Nat) : Nat := 2 ^ (rank / 2 ^ 52 - 1)

theorem gap_pos (rank : Nat) : 0 < gap rank := Nat.two_pow_pos _

theorem units_of_lt (h : r < 2 ^ 52) : units r = r := if_pos h

/-- The value of a rank from its exponent and its significand. -/
theorem units_of_exponent (h : r / 2 ^ 52 = q + 1) : units r = (2 ^ 52 + r % 2 ^ 52) * 2 ^ q := by
  have hge : ¬r < ranksPerExponent := by
    rw [ranksPerExponent_eq]
    omega
  rw [units, if_neg hge, ranksPerExponent_eq, h, Nat.add_sub_cancel]
  rfl

theorem units_succ (r : Nat) : units (r + 1) = units r + gap r := by
  rcases Nat.lt_or_ge r (2 ^ 52) with hr | hr
  · have hgap : gap r = 1 := by rw [gap, Nat.div_eq_of_lt hr]; rfl
    rw [units_of_lt hr, hgap]
    rcases Nat.lt_or_ge (r + 1) (2 ^ 52) with hs | hs
    · exact units_of_lt hs
    · have hone : (r + 1) / 2 ^ 52 = 0 + 1 := by omega
      rw [units_of_exponent hone]
      omega
  · obtain ⟨k, hk⟩ : ∃ k, r / 2 ^ 52 = k + 1 := Nat.exists_eq_add_one.2 (by omega)
    rw [units_of_exponent hk, gap, hk, Nat.add_sub_cancel]
    rcases Nat.lt_or_ge (r % 2 ^ 52 + 1) (2 ^ 52) with hs | hs
    · have hquot : (r + 1) / 2 ^ 52 = k + 1 := by omega
      have hrem : (r + 1) % 2 ^ 52 = r % 2 ^ 52 + 1 := by omega
      rw [units_of_exponent hquot, hrem]
      ring
    · -- the last rank with this exponent
      have hquot : (r + 1) / 2 ^ 52 = (k + 1) + 1 := by omega
      have hrem : (r + 1) % 2 ^ 52 = 0 := by omega
      have hlast : r % 2 ^ 52 = 2 ^ 52 - 1 := by omega
      rw [units_of_exponent hquot, hrem, hlast]
      ring

/-- The significand has 53 bits. -/
theorem units_succ_le (r : Nat) : units (r + 1) ≤ 2 ^ 53 * gap r := by
  rw [units_succ, gap]
  rcases Nat.lt_or_ge r (2 ^ 52) with hr | hr
  · rw [units_of_lt hr, Nat.div_eq_of_lt hr]
    omega
  · obtain ⟨k, hk⟩ : ∃ k, r / 2 ^ 52 = k + 1 := Nat.exists_eq_add_one.2 (by omega)
    rw [units_of_exponent hk, hk, Nat.add_sub_cancel, ← Nat.succ_mul]
    refine Nat.mul_le_mul_right _ ?_
    omega

theorem units_mono (h : r ≤ r') : units r ≤ units r' :=
  monotone_nat_of_le_succ (fun r => by rw [units_succ]; omega) h

theorem units_pos (h : 0 < r) : 0 < units r := by
  obtain ⟨k, rfl⟩ := Nat.exists_eq_add_one.2 h
  have := gap_pos k
  rw [units_succ]
  omega

/-! ## Rounding -/

theorem le_divideToEven (n d : Nat) : n / d ≤ divideToEven n d := by
  unfold divideToEven
  split
  · omega
  · split <;> omega

theorem divideToEven_le (n d : Nat) : divideToEven n d ≤ n / d + 1 := by
  unfold divideToEven
  split
  · omega
  · split <;> omega

theorem divideToEven_mono (h : n ≤ n') (d : Nat) : divideToEven n d ≤ divideToEven n' d := by
  rcases Nat.lt_or_ge (n / d) (n' / d) with hlt | hge
  · exact ((divideToEven_le n d).trans hlt).trans (le_divideToEven n' d)
  · have hquot : n / d = n' / d := Nat.le_antisymm (Nat.div_le_div_right h) hge
    have hrem : n % d ≤ n' % d := by
      have h₁ := Nat.div_add_mod n d
      have h₂ := Nat.div_add_mod n' d
      rw [hquot] at h₁
      omega
    unfold divideToEven
    rw [hquot]
    split
    · split
      · omega
      · split <;> omega
    · split
      · split
        · omega
        · split <;> omega
      · split
        · omega
        · split <;> omega

/-- Rounding stays below a whole number. -/
theorem divideToEven_le_of_le_mul {k : Nat} (h : n ≤ k * d) : divideToEven n d ≤ k := by
  rcases Nat.eq_zero_or_pos d with rfl | hd
  · obtain rfl : n = 0 := by omega
    simp [divideToEven]
  · rcases Nat.lt_or_ge (n / d) k with hlt | hge
    · exact (divideToEven_le n d).trans hlt
    · -- nothing is left over
      have hexact : n = k * d := Nat.le_antisymm h ((Nat.le_div_iff_mul_le hd).1 hge)
      rw [hexact, divideToEven, Nat.mul_mod_left, Nat.mul_div_cancel k hd, if_pos (by omega)]

theorem log2_mono (h : n ≤ n') : n.log2 ≤ n'.log2 := by
  rcases Nat.eq_zero_or_pos n with rfl | hn
  · simp
  · exact (Nat.le_log2 (by omega)).2 (((Nat.le_log2 (by omega)).1 (Nat.le_refl _)).trans h)

/-- Up to rounding, a quotient shifted to 53 bits has no more. -/
theorem divideToEven_shift_le (n d : Nat) :
    divideToEven n (d * 2 ^ ((n / d).log2 - 52)) ≤ 2 ^ 53 := by
  refine (divideToEven_le _ _).trans ?_
  rw [← Nat.div_div_eq_div_mul, Nat.add_one_le_iff, Nat.div_lt_iff_lt_mul (Nat.pow_pos (by decide)),
    ← pow_add]
  refine Nat.lt_log2_self.trans_le (Nat.pow_le_pow_right (by decide) ?_)
  omega

/-- If there is anything to shift away, it has no fewer. -/
theorem le_divideToEven_shift (h : 52 < (n / d).log2) :
    2 ^ 52 ≤ divideToEven n (d * 2 ^ ((n / d).log2 - 52)) := by
  refine Nat.le_trans ?_ (le_divideToEven _ _)
  have hne : n / d ≠ 0 := by
    intro hzero
    simp [hzero] at h
  rw [← Nat.div_div_eq_div_mul, Nat.le_div_iff_mul_le (Nat.pow_pos (by decide)), ← pow_add,
    Nat.add_sub_cancel' h.le]
  exact Nat.log2_self_le hne

/-- **Rounding keeps the order.** -/
theorem roundQuotient_mono (h : n ≤ n') (d : Nat) : roundQuotient n d ≤ roundQuotient n' d := by
  have hlog : (n / d).log2 ≤ (n' / d).log2 := log2_mono (Nat.div_le_div_right h)
  have hle := divideToEven_shift_le n d
  unfold roundQuotient
  simp only [ranksPerExponent_eq, Nat.pow_eq]
  refine min_le_min_right _ ?_
  rcases Nat.lt_or_ge ((n / d).log2 - 52) ((n' / d).log2 - 52) with hlt | hge
  · have hge := le_divideToEven_shift (n := n') (d := d) (by omega)
    omega
  · have hshift : (n' / d).log2 - 52 = (n / d).log2 - 52 := by omega
    rw [hshift]
    exact Nat.add_le_add_left (divideToEven_mono h _) _

/-- Only the quotient counts. -/
theorem divideToEven_mul_left {k : Nat} (hk : 0 < k) (n d : Nat) :
    divideToEven (k * n) (k * d) = divideToEven n d := by
  have hdouble : 2 * (k * (n % d)) = k * (2 * (n % d)) := Nat.mul_left_comm _ _ _
  simp only [divideToEven, Nat.mul_mod_mul_left, Nat.mul_div_mul_left n d hk, hdouble,
    Nat.mul_lt_mul_left hk]

theorem roundQuotient_mul_left {k : Nat} (hk : 0 < k) (n d : Nat) :
    roundQuotient (k * n) (k * d) = roundQuotient n d := by
  unfold roundQuotient
  simp only [Nat.mul_div_mul_left n d hk, Nat.mul_assoc k, divideToEven_mul_left hk]

/-! ## One -/

/-- Below one, units have at most 1073 binary digits behind the first; with one the 1023rd exponent
begins. -/
theorem around_one : unitsPerOne = 2 ^ 53 * 2 ^ 1021 ∧ (unitsPerOne - 1).log2 = 1073 ∧
    (ofNat 1).rank = 1023 * 2 ^ 52 := by
  decide +kernel

/-- **A quotient below one of counts that a double holds exactly is not rounded to one.** -/
theorem ofRatio_lt_one (h : n < d) (hd : d ≤ 2 ^ 53) : (ofRatio n d).lt (ofNat 1) = true := by
  obtain ⟨hunits, hpred, hone⟩ := around_one
  have hquot : n * unitsPerOne / d < unitsPerOne := by
    rw [Nat.div_lt_iff_lt_mul (Nat.zero_lt_of_lt h), Nat.mul_comm]
    exact Nat.mul_lt_mul_of_pos_left h unitsPerOne_pos
  have hlog : (n * unitsPerOne / d).log2 ≤ 1073 :=
    (log2_mono (Nat.le_sub_one_of_lt hquot)).trans_eq hpred
  have hrank : (ofRatio n d).rank < 1023 * 2 ^ 52 := by
    refine (Nat.min_le_left _ _).trans_lt ?_
    simp only [ranksPerExponent_eq, Nat.pow_eq]
    have hle := divideToEven_shift_le (n * unitsPerOne) d
    generalize hshift : (n * unitsPerOne / d).log2 - 52 = shift at hle ⊢
    rcases Nat.lt_or_ge shift 1021 with hlt | hge
    · omega
    · -- the exponent right below one: the quotient misses one by at least one of its steps
      have hsteps : n * 2 ^ 53 ≤ (2 ^ 53 - 1) * d := by omega
      have hunits : unitsPerOne = 2 ^ 53 * 2 ^ shift := by
        rw [hunits, show shift = 1021 by omega]
      have hbelow : divideToEven (n * unitsPerOne) (d * 2 ^ shift) ≤ 2 ^ 53 - 1 := by
        refine divideToEven_le_of_le_mul ?_
        calc n * unitsPerOne
            _ = n * 2 ^ 53 * 2 ^ shift := by rw [hunits, Nat.mul_assoc]
            _ ≤ (2 ^ 53 - 1) * d * 2 ^ shift := Nat.mul_le_mul_right _ hsteps
            _ = (2 ^ 53 - 1) * (d * 2 ^ shift) := Nat.mul_assoc _ _ _
      omega
  have hsign : (ofNat 1).negative = false := rfl
  have hsign' : (ofRatio n d).negative = false := rfl
  have hinfinity : infinityRank = 2047 * 2 ^ 52 := rfl
  simp only [lt, isNaN, signedRank, hone, hsign, hsign', hinfinity, Bool.false_eq_true, if_false,
    Bool.and_eq_true, Bool.not_eq_true', decide_eq_true_eq, decide_eq_false_iff_not]
  omega

/-- A quotient of equal counts is one. -/
theorem ofRatio_self (h : 0 < n) : ofRatio n n = ofNat 1 := by
  have hround := roundQuotient_mul_left h unitsPerOne 1
  rw [Nat.mul_one] at hround
  rw [ofNat, ofRatio, ofRatio, hround, Nat.one_mul]

/-! ## Comparison -/

/-- A rounded quotient is a number or infinite. -/
theorem isNaN_ofRatio (n d : Nat) : (ofRatio n d).isNaN = false :=
  decide_eq_false (Nat.not_lt.2 (Nat.min_le_right _ _))

/-- Of two numbers either the first is less or the second is at most as great. -/
theorem lt_eq_not_le {x y : Binary64} (hx : x.isNaN = false) (hy : y.isNaN = false) :
    x.lt y = !y.le x := by
  simp only [lt, le, hx, hy, Bool.not_false, Bool.true_and, ← decide_not, decide_eq_decide]
  omega

theorem isNaN_of_le {x y : Binary64} (h : x.le y = true) : x.isNaN = false ∧ y.isNaN = false := by
  simp only [le, Bool.and_eq_true, Bool.not_eq_true'] at h
  exact h.1

theorem le_trans {x y z : Binary64} (h : x.le y = true) (h' : y.le z = true) : x.le z = true := by
  simp only [le, Bool.and_eq_true, decide_eq_true_eq] at *
  exact ⟨⟨h.1.1, h'.1.2⟩, by omega⟩

/-- A rounded quotient of at most one lies between zero and one. -/
theorem ofRatio_within (h : n ≤ d) (hd : 0 < d) :
    (ofNat 0).le (ofRatio n d) = true ∧ (ofRatio n d).le (ofNat 1) = true := by
  have hrank : (ofRatio n d).rank ≤ (ofNat 1).rank := by
    rw [← ofRatio_self hd]
    exact roundQuotient_mono (Nat.mul_le_mul_right _ h) d
  have hzero : (ofNat 0).rank = 0 := by decide +kernel
  have hnumber : ∀ n d, (ofRatio n d).isNaN = false := isNaN_ofRatio
  have hsigned : ∀ n d, (ofRatio n d).signedRank = (ofRatio n d).rank := fun _ _ => rfl
  simp only [ofNat] at hrank hzero ⊢
  simp only [le, hnumber, hsigned, hzero, Bool.not_false, Bool.true_and, decide_eq_true_eq]
  omega

/-! ## Products -/

theorem rank_ofNat_mono (h : n ≤ n') : (ofNat n).rank ≤ (ofNat n').rank :=
  roundQuotient_mono (Nat.mul_le_mul_right _ h) 1

theorem isNaN_of_isFinite {x : Binary64} (h : x.isFinite = true) : x.isNaN = false := by
  simp only [isFinite, isNaN, decide_eq_true_eq, decide_eq_false_iff_not] at h ⊢
  omega

/-- The product of two finite doubles is their exact product, rounded. -/
theorem mul_of_isFinite {x y : Binary64} (hx : x.isFinite = true) (hy : y.isFinite = true) :
    x.mul y = ⟨x.negative != y.negative,
      roundQuotient (units x.rank * units y.rank) unitsPerOne⟩ := by
  simp [mul, isNaN_of_isFinite hx, isNaN_of_isFinite hy, hx, hy]

theorem isFinite_of_le {x x' : Binary64} (h : x'.isFinite = true) (hx : x.rank ≤ x'.rank) :
    x.isFinite = true := by
  simp only [isFinite, decide_eq_true_eq] at h ⊢
  omega

/-- A product that is finite stays so with lesser factors. -/
theorem isFinite_mul_of_le {x x' y y' : Binary64} (hx' : x'.isFinite = true)
    (hy' : y'.isFinite = true) (h : (x'.mul y').isFinite = true) (hx : x.rank ≤ x'.rank)
    (hy : y.rank ≤ y'.rank) : (x.mul y).isFinite = true := by
  rw [mul_of_isFinite hx' hy'] at h
  rw [mul_of_isFinite (isFinite_of_le hx' hx) (isFinite_of_le hy' hy)]
  exact isFinite_of_le h
    (roundQuotient_mono (Nat.mul_le_mul (units_mono hx) (units_mono hy)) unitsPerOne)

end NearDup.Binary64
