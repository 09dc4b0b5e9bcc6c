import NearDup.Number.Shortest
import NearDup.Proofs.Number.Digits
import NearDup.Proofs.Number.Rounding

/-!
# What the shortest digits are

The leading exponent of a positive double tells between which powers of ten it is, so a grid of `n`
digits has its points there. A step of the grid of seventeen digits is less than half of what rounds
to the double on both sides together, so one of the two points next to it is found. Whatever point
is found, the digits without the zeros at their end have the same value, which is no greater than
the end of the interval of the double.

* `Leads`, `leads_leadingExponent` — the exponent of the leading digit
* `exists_gridPoint` — seventeen digits suffice
* `exists_shortest` — there are digits, at most seventeen of them, and they are those of a grid point
* `shortest_le_end` — their value is at most the end of the interval
* `isFinite_shortest_mul` — no product that gives it, or less, is infinite
-/

namespace NearDup.Binary64

open Number

variable {r n c k : Nat} {e s : Int}

/-! ## The leading exponent -/

/-- The value of a rank is at least 10ᵉ and less than 10ᵉ⁺¹. -/
def Leads (r : Nat) (e : Int) : Prop :=
  ∃ a b : Nat, e + b = a ∧ 10 ^ a * unitsPerOne ≤ units r * 10 ^ b ∧
    units r * 10 ^ b < 10 ^ (a + 1) * unitsPerOne

theorem leads_leadingExponent (hr : 0 < r) : Leads r (leadingExponent r) := by
  have hpow : unitsPerOne ≤ Nat.pow 10 324 := by decide +kernel
  unfold Leads leadingExponent
  generalize hb : (324 : Nat) = b at *
  have hpos : 0 < units r * 10 ^ b / unitsPerOne := by
    refine Nat.div_pos ?_ unitsPerOne_pos
    exact hpow.trans (Nat.le_mul_of_pos_left _ (units_pos hr))
  obtain ⟨a, ha⟩ := Nat.exists_eq_add_one.2 (length_digits_pos (units r * 10 ^ b / unitsPerOne))
  have hle := pow_length_digits_le hpos
  have hlt := lt_pow_length_digits (units r * 10 ^ b / unitsPerOne)
  rw [ha, Nat.add_sub_cancel, Nat.le_div_iff_mul_le unitsPerOne_pos] at hle
  rw [ha, Nat.div_lt_iff_lt_mul unitsPerOne_pos] at hlt
  refine ⟨a, b, ?_, hle, hlt⟩
  rw [Nat.pow_eq, ha]
  omega

/-- A power of ten on one side of an equation or on the other. -/
theorem scale_pow {a b : Nat} (h : s + a = b) :
    10 ^ s.toNat * 10 ^ a = 10 ^ (-s).toNat * 10 ^ b := by
  rw [← pow_add, ← pow_add]
  congr 1
  omega

/-- The value of a rank in steps of the grid of `n` digits has `n` digits. -/
theorem Leads.steps (h : Leads r e) (hs : s + n = e) :
    10 ^ n * (unitsPerOne * 10 ^ s.toNat) ≤ units r * 10 ^ (-s).toNat ∧
      units r * 10 ^ (-s).toNat < 10 ^ (n + 1) * (unitsPerOne * 10 ^ s.toNat) := by
  obtain ⟨a, b, hab, hle, hlt⟩ := h
  have hten : 0 < 10 ^ b := Nat.pow_pos (by decide)
  have hdown : 0 < 10 ^ (-s).toNat := Nat.pow_pos (by decide)
  have hpow : 10 ^ s.toNat * 10 ^ (n + b) = 10 ^ (-s).toNat * 10 ^ a := scale_pow (by omega)
  constructor
  · refine Nat.le_of_mul_le_mul_right ?_ hten
    calc 10 ^ n * (unitsPerOne * 10 ^ s.toNat) * 10 ^ b
        = unitsPerOne * (10 ^ s.toNat * 10 ^ (n + b)) := by ring
      _ = 10 ^ (-s).toNat * (10 ^ a * unitsPerOne) := by rw [hpow]; ring
      _ ≤ 10 ^ (-s).toNat * (units r * 10 ^ b) := Nat.mul_le_mul_left _ hle
      _ = units r * 10 ^ (-s).toNat * 10 ^ b := by ring
  · refine Nat.lt_of_mul_lt_mul_right (a := 10 ^ b) ?_
    calc units r * 10 ^ (-s).toNat * 10 ^ b
        = 10 ^ (-s).toNat * (units r * 10 ^ b) := by ring
      _ < 10 ^ (-s).toNat * (10 ^ (a + 1) * unitsPerOne) := Nat.mul_lt_mul_of_pos_left hlt hdown
      _ = 10 * unitsPerOne * (10 ^ (-s).toNat * 10 ^ a) := by ring
      _ = 10 ^ (n + 1) * (unitsPerOne * 10 ^ s.toNat) * 10 ^ b := by rw [← hpow]; ring

/-! ## Grid points -/

/-- What rounds to a rank is at most the upper end of its interval. -/
theorem le_of_roundsTo {d : Nat} (h : roundsTo r n d = true) :
    n ≤ (units r + units (r + 1)) * d := by
  unfold roundsTo intervalEnds at h
  split at h
  · exact of_decide_eq_true (Bool.and_eq_true_iff.1 h).2
  · exact (of_decide_eq_true (Bool.and_eq_true_iff.1 h).2).le

/-- What is nearer to the value than half the step on its side rounds to the rank. -/
theorem roundsTo_of_lt {p d : Nat} (hl : 2 * (units (p + 1) * d) < n + gap p * d)
    (hu : n < 2 * (units (p + 1) * d) + gap (p + 1) * d) : roundsTo (p + 1) n d = true := by
  have hlow : (units p + units (p + 1)) * d + gap p * d = 2 * (units (p + 1) * d) := by
    rw [units_succ p]
    ring
  have hhigh : (units (p + 1) + units (p + 1 + 1)) * d =
      2 * (units (p + 1) * d) + gap (p + 1) * d := by
    rw [units_succ (p + 1)]
    ring
  have hl' : (units p + units (p + 1)) * d < n := by omega
  have hu' : n < (units (p + 1) + units (p + 1 + 1)) * d := by omega
  unfold roundsTo intervalEnds
  split
  · simp [hl'.le, hu'.le]
  · simp [hl', hu']

/-- A grid point that is found rounds to the rank and is one of the two next to its value. -/
theorem gridPoint_cases (h : gridPoint r n e = some c) (hs : s = e + 1 - n) :
    roundsTo r (2 * c * (unitsPerOne * 10 ^ s.toNat)) (10 ^ (-s).toNat) = true ∧
      (c = units r * 10 ^ (-s).toNat / (unitsPerOne * 10 ^ s.toNat) ∨
        c = units r * 10 ^ (-s).toNat / (unitsPerOne * 10 ^ s.toNat) + 1) := by
  unfold gridPoint at h
  simp only [Nat.pow_eq, ← hs] at h
  have hnear := le_divideToEven (units r * 10 ^ (-s).toNat) (unitsPerOne * 10 ^ s.toNat)
  have hnear' := divideToEven_le (units r * 10 ^ (-s).toNat) (unitsPerOne * 10 ^ s.toNat)
  split at h
  · next hb ha =>
    rw [Option.some.injEq] at h
    rcases Nat.lt_or_ge (units r * 10 ^ (-s).toNat / (unitsPerOne * 10 ^ s.toNat)) c with hlt | hge
    · obtain rfl : c = units r * 10 ^ (-s).toNat / (unitsPerOne * 10 ^ s.toNat) + 1 := by omega
      exact ⟨ha, Or.inr rfl⟩
    · obtain rfl : c = units r * 10 ^ (-s).toNat / (unitsPerOne * 10 ^ s.toNat) := by omega
      exact ⟨hb, Or.inl rfl⟩
  · next hb _ =>
    cases h
    exact ⟨hb, Or.inl rfl⟩
  · next _ ha =>
    cases h
    exact ⟨ha, Or.inr rfl⟩
  · cases h

/-- **Seventeen digits suffice.** If neither neighbour on the grid rounded to the rank, a step would
be as long as what rounds to it, but that is more than the value by 2⁵³ and a step is at most the
value by 10¹⁶. -/
theorem exists_gridPoint (hr : 0 < r) (h : Leads r e) : ∃ c, gridPoint r 17 e = some c := by
  obtain ⟨p, rfl⟩ := Nat.exists_eq_add_one.2 hr
  obtain ⟨hstep, -⟩ := h.steps (n := 16) (s := e + 1 - 17) (by omega)
  unfold gridPoint
  simp only [Nat.pow_eq, Nat.cast_ofNat]
  generalize e + 1 - 17 = s at *
  have hdown : 0 < 10 ^ (-s).toNat := Nat.pow_pos (by decide)
  have hpos : 0 < unitsPerOne * 10 ^ s.toNat :=
    Nat.mul_pos unitsPerOne_pos (Nat.pow_pos (by decide))
  generalize 10 ^ (-s).toNat = down at *
  generalize unitsPerOne * 10 ^ s.toNat = step at *
  have hlow : units (p + 1) * down ≤ 2 ^ 53 * (gap p * down) := by
    rw [← Nat.mul_assoc]
    exact Nat.mul_le_mul_right _ (units_succ_le p)
  have hhigh : units (p + 1) * down ≤ 2 ^ 53 * (gap (p + 1) * down) := by
    rw [← Nat.mul_assoc]
    exact Nat.mul_le_mul_right _ ((units_mono (Nat.le_succ _)).trans (units_succ_le (p + 1)))
  have hbelow := Nat.div_mul_le_self (units (p + 1) * down) step
  have habove := Nat.lt_div_mul_add (a := units (p + 1) * down) hpos
  split
  · exact ⟨_, rfl⟩
  · exact ⟨_, rfl⟩
  · exact ⟨_, rfl⟩
  · next hb ha =>
    exfalso
    generalize units (p + 1) * down / step = below at *
    rw [Nat.mul_assoc] at hb
    rw [Nat.mul_assoc, Nat.add_mul below, Nat.one_mul] at ha
    have hgap : 0 < gap p * down := Nat.mul_pos (gap_pos _) hdown
    have hgap' : 0 < gap (p + 1) * down := Nat.mul_pos (gap_pos _) hdown
    have hb' : 2 * (below * step) + gap p * down ≤ 2 * (units (p + 1) * down) := by
      by_contra hlt
      exact Bool.false_ne_true (hb.symm.trans (roundsTo_of_lt (by omega) (by omega)))
    have ha' : 2 * (units (p + 1) * down) + gap (p + 1) * down ≤ 2 * (below * step + step) := by
      by_contra hlt
      exact Bool.false_ne_true (ha.symm.trans (roundsTo_of_lt (by omega) (by omega)))
    omega

/-- A grid point has its number of digits, or it is the next power of ten. -/
theorem Leads.pow_le_gridPoint (h : Leads r e) (hc : gridPoint r (n + 1) e = some c) :
    10 ^ n ≤ c ∧ c ≤ 10 ^ (n + 1) := by
  obtain ⟨hle, hlt⟩ := h.steps (n := n) (s := e + 1 - (n + 1 : Nat)) (by omega)
  have hpos : 0 < unitsPerOne * 10 ^ (e + 1 - (n + 1 : Nat)).toNat :=
    Nat.mul_pos unitsPerOne_pos (Nat.pow_pos (by decide))
  rw [← Nat.le_div_iff_mul_le hpos] at hle
  rw [← Nat.div_lt_iff_lt_mul hpos] at hlt
  have hcases := (gridPoint_cases hc rfl).2
  omega

/-! ## The digits -/

/-- Nothing but zeros is dropped. -/
theorem exists_dropTrailingZeros (fuel n : Nat) : ∃ j, n = dropTrailingZeros fuel n * 10 ^ j := by
  induction fuel generalizing n with
  | zero => exact ⟨0, by simp [dropTrailingZeros]⟩
  | succ fuel ih =>
    unfold dropTrailingZeros
    split
    · next h =>
      obtain ⟨j, hj⟩ := ih (n / 10)
      refine ⟨j + 1, ?_⟩
      rw [pow_succ, ← Nat.mul_assoc, ← hj]
      omega
    · exact ⟨0, by simp⟩

/-- The exponent of the last digit. -/
def Significant.last (s : Significant) : Int := s.exponent + 1 - (Number.digits s.digits).length

/-- The shortest digits are those of a grid point, and stand for it. -/
theorem exists_shortest (hr : 0 < r) : ∃ n c j : Nat, n ≤ 16 ∧
    gridPoint r (n + 1) (leadingExponent r) = some c ∧ c = (shortest r).digits * 10 ^ j ∧
      0 < (shortest r).digits ∧ (shortest r).digits ≤ 10 ^ 17 ∧
      (shortest r).last = leadingExponent r - n + j := by
  have hleads := leads_leadingExponent hr
  obtain ⟨n, c, hn, hc, hshort⟩ : ∃ n c : Nat, n ≤ 16 ∧
      gridPoint r (n + 1) (leadingExponent r) = some c ∧
      shortest r = ⟨dropTrailingZeros 17 c,
        if c = 10 ^ (n + 1) then leadingExponent r + 1 else leadingExponent r⟩ := by
    unfold shortest
    simp only [Nat.pow_eq]
    split
    · next hnone =>
      obtain ⟨c, hc⟩ := exists_gridPoint hr hleads
      have hall := List.findSome?_eq_none_iff.1 hnone 17 (by decide)
      rw [hc] at hall
      cases hall
    · next n c hsome =>
      obtain ⟨m, hm, hmap⟩ := List.exists_of_findSome?_eq_some hsome
      obtain ⟨k, hk, rfl⟩ := List.mem_map.1 hm
      obtain ⟨d, hd, heq⟩ := Option.map_eq_some_iff.1 hmap
      cases heq
      exact ⟨k, c, by simpa [Nat.lt_succ_iff] using hk, hd, rfl⟩
  obtain ⟨hle, hge⟩ := hleads.pow_le_gridPoint hc
  obtain ⟨j, hj⟩ := exists_dropTrailingZeros 17 c
  have hcpos : 0 < c := (Nat.pow_pos (by decide)).trans_le hle
  rw [hshort]
  generalize dropTrailingZeros 17 c = m at *
  have hm : 0 < m := Nat.pos_of_ne_zero fun hzero => by simp [hzero] at hj; omega
  have hlen := length_digits_mul_pow hm j
  rw [← hj] at hlen
  refine ⟨n, c, j, hn, hc, hj, hm, ?_, ?_⟩
  · calc m ≤ m * 10 ^ j := Nat.le_mul_of_pos_right _ (Nat.pow_pos (by decide))
      _ ≤ 10 ^ (n + 1) := hj ▸ hge
      _ ≤ 10 ^ 17 := Nat.pow_le_pow_right (by decide) (by omega)
  · unfold Significant.last
    split
    · next hpow =>
      have hpow' : 10 ^ (n + 1) < 10 ^ (n + 1 + 1) := Nat.pow_lt_pow_right (by decide) (by omega)
      rw [length_digits_eq hpow.ge (hpow ▸ hpow')] at hlen
      simp only
      omega
    · next hne =>
      rw [length_digits_eq hle (by omega)] at hlen
      simp only
      omega

/-- **The digits stand for no more than the upper end of the interval.** -/
theorem shortest_le_end (hr : 0 < r) (hk : k = (shortest r).last) :
    2 * ((shortest r).digits * 10 ^ k) * unitsPerOne ≤ units r + units (r + 1) := by
  obtain ⟨n, c, j, -, hc, hdigits, -, -, hlast⟩ := exists_shortest hr
  have hle := le_of_roundsTo (gridPoint_cases hc rfl).1
  generalize hs : leadingExponent r + 1 - (n + 1 : Nat) = s at hle
  have hpow : 10 ^ s.toNat * 10 ^ j = 10 ^ (-s).toNat * 10 ^ k := scale_pow (by omega)
  refine Nat.le_of_mul_le_mul_right ?_ (show 0 < 10 ^ (-s).toNat from Nat.pow_pos (by decide))
  calc 2 * ((shortest r).digits * 10 ^ k) * unitsPerOne * 10 ^ (-s).toNat
      = 2 * (shortest r).digits * unitsPerOne * (10 ^ (-s).toNat * 10 ^ k) := by ring
    _ = 2 * c * (unitsPerOne * 10 ^ s.toNat) := by rw [← hpow, hdigits]; ring
    _ ≤ (units r + units (r + 1)) * 10 ^ (-s).toNat := hle

/-! ## Products

A reader forms the double of the digits and multiplies it by a power of ten, so it rounds three
times. The product stays finite, also for the greatest doubles.
-/

/-- The greatest number of at most seventeen digits that with `k` zeros behind it does not pass the
end of the interval of the last double but one. -/
def digitsLimit (k : Nat) : Nat :=
  min (10 ^ 17)
    ((units (infinityRank - 2) + units (infinityRank - 1)) / (2 * 10 ^ k * unitsPerOne))

/-- The limit is 10¹⁷ up to 291 zeros, and with 308 it is one digit. -/
theorem isFinite_digitsLimit : ∀ k ∈ List.range' 291 18,
    (ofNat (digitsLimit k)).isFinite = true ∧ (ofNat (10 ^ k)).isFinite = true ∧
      ((ofNat (digitsLimit k)).mul (ofNat (10 ^ k))).isFinite = true := by decide +kernel

theorem digitsLimit_first : digitsLimit 291 = 10 ^ 17 ∧
    2 * 10 ^ 17 * unitsPerOne ≤ units (infinityRank - 2) + units (infinityRank - 1) ∧
      units (infinityRank - 2) + units (infinityRank - 1) < 2 * 10 ^ 309 * unitsPerOne := by
  decide +kernel

/-- The digits of the greatest double, and their product. -/
theorem shortest_greatest : shortest (infinityRank - 1) = ⟨17976931348623157, 308⟩ ∧
    (⟨17976931348623157, 308⟩ : Significant).last = 292 ∧
      (ofNat 17976931348623157).isFinite = true ∧ (ofNat (10 ^ 292)).isFinite = true ∧
        ((ofNat 17976931348623157).mul (ofNat (10 ^ 292))).isFinite = true := by
  decide +kernel

/-- Digits within the limit have a finite product with as many zeros, or fewer. -/
theorem isFinite_mul_pow_of_le {d : Nat} (hk : k < 309) (h : d ≤ 10 ^ 17)
    (hend : 2 * (d * 10 ^ k) * unitsPerOne ≤ units (infinityRank - 2) + units (infinityRank - 1)) :
    ((ofNat d).mul (ofNat (10 ^ k))).isFinite = true := by
  rcases Nat.lt_or_ge k 291 with hlow | hhigh
  · obtain ⟨hd, hpow, hmul⟩ := isFinite_digitsLimit 291 (by decide)
    rw [digitsLimit_first.1] at hd hmul
    have hle : 10 ^ k ≤ 10 ^ 291 := pow_le_pow_right₀ (by decide) hlow.le
    exact isFinite_mul_of_le hd hpow hmul (rank_ofNat_mono h) (rank_ofNat_mono hle)
  · obtain ⟨hd, hpow, hmul⟩ := isFinite_digitsLimit k (List.mem_range'_1.2 ⟨hhigh, by omega⟩)
    refine isFinite_mul_of_le hd hpow hmul (rank_ofNat_mono ?_) (Nat.le_refl _)
    have hpos : 0 < 2 * 10 ^ k * unitsPerOne :=
      Nat.mul_pos (Nat.mul_pos (by decide) (Nat.pow_pos (by decide))) unitsPerOne_pos
    refine Nat.le_min.2 ⟨h, (Nat.le_div_iff_mul_le hpos).2 ?_⟩
    calc d * (2 * 10 ^ k * unitsPerOne) = 2 * (d * 10 ^ k) * unitsPerOne := by ring
      _ ≤ _ := hend

/-- **No product that gives the shortest digits, or less, is infinite.** -/
theorem isFinite_shortest_mul (hr : 0 < r) (hfin : r < infinityRank)
    (hk : k ≤ max 0 (shortest r).last) : k < 309 ∧
      ((ofNat (shortest r).digits).mul (ofNat (10 ^ k))).isFinite = true := by
  rcases Nat.eq_zero_or_pos k with rfl | hkpos
  · obtain ⟨_, _, _, -, -, -, -, hle, -⟩ := exists_shortest hr
    refine ⟨by decide, isFinite_mul_pow_of_le (by decide) hle ?_⟩
    calc 2 * ((shortest r).digits * 10 ^ 0) * unitsPerOne ≤ 2 * 10 ^ 17 * unitsPerOne := by
          rw [pow_zero, Nat.mul_one]
          exact Nat.mul_le_mul_right _ (Nat.mul_le_mul_left 2 hle)
      _ ≤ units (infinityRank - 2) + units (infinityRank - 1) := digitsLimit_first.2.1
  rcases Nat.lt_or_ge r (infinityRank - 1) with hlt | hge
  · obtain ⟨last, hlast⟩ := Int.eq_ofNat_of_zero_le (show 0 ≤ (shortest r).last by omega)
    obtain ⟨_, _, _, -, -, -, hpos, hle, -⟩ := exists_shortest hr
    have hend : 2 * ((shortest r).digits * 10 ^ k) * unitsPerOne ≤
        units (infinityRank - 2) + units (infinityRank - 1) := by
      calc 2 * ((shortest r).digits * 10 ^ k) * unitsPerOne
          ≤ 2 * ((shortest r).digits * 10 ^ last) * unitsPerOne := by
            gcongr
            · decide
            · omega
        _ ≤ units r + units (r + 1) := shortest_le_end hr hlast.symm
        _ ≤ units (infinityRank - 2) + units (infinityRank - 1) :=
          Nat.add_le_add (units_mono (by omega)) (units_mono (by omega))
    have hk : k < 309 := by
      by_contra hge
      have hone : 10 ^ 309 ≤ (shortest r).digits * 10 ^ k :=
        (pow_le_pow_right₀ (by decide) (by omega)).trans (Nat.le_mul_of_pos_left _ hpos)
      have hle := (Nat.mul_le_mul_right unitsPerOne (Nat.mul_le_mul_left 2 hone)).trans hend
      exact absurd hle (Nat.not_le.2 digitsLimit_first.2.2)
    exact ⟨hk, isFinite_mul_pow_of_le hk hle hend⟩
  · obtain rfl : r = infinityRank - 1 := by omega
    obtain ⟨hshortest, hlast, hd, hten, hmul⟩ := shortest_greatest
    rw [hshortest] at hk ⊢
    rw [hlast] at hk
    have hpow : 10 ^ k ≤ 10 ^ 292 := pow_le_pow_right₀ (by decide) (by omega)
    exact ⟨by omega, isFinite_mul_of_le hd hten hmul (Nat.le_refl _) (rank_ofNat_mono hpow)⟩

/-- The exponent has at most three digits. -/
theorem natAbs_exponent_shortest_lt (hr : 0 < r) (hfin : r < infinityRank) :
    (shortest r).exponent.natAbs < 1000 := by
  obtain ⟨n, _, j, hn, -, -, hpos, hle, hlast⟩ := exists_shortest hr
  have hlen : (digits (shortest r).digits).length ≤ 18 :=
    length_digits_le (by decide) (hle.trans_lt (by decide))
  have hlen' := length_digits_pos (shortest r).digits
  have hlow : -324 ≤ leadingExponent r := by
    have := length_digits_pos (units r * Nat.pow 10 324 / unitsPerOne)
    unfold leadingExponent
    omega
  have hhigh : (shortest r).last < 309 := by
    by_contra hge
    obtain ⟨last, hl⟩ := Int.eq_ofNat_of_zero_le (show 0 ≤ (shortest r).last by omega)
    have := (isFinite_shortest_mul hr hfin (hl.ge.trans (le_max_right _ _))).1
    omega
  unfold Significant.last at hlast hhigh
  omega

end NearDup.Binary64
