import NearDup.Proofs.Number.Rounding

/-!
# Operations that keep the order

Multiplying by a positive double, dividing by one and rounding to a whole number keep the sign and
do not make the lesser of two ranks the greater one. What is too great becomes infinite, and what is
infinite stays so. So all of them keep the total order of numbers, and so does rounding to
thousandths, which is made of them.

* `KeepsOrder` — a function of doubles keeps signs and the order of ranks
* `keepsOrder_of_rank` — so does one that acts on the ranks alone
* `keepsOrder_roundToThousandths` — rounding to thousandths keeps the order
-/

namespace NearDup.Binary64

variable {f g : Binary64 → Binary64} {x x' y : Binary64}

/-! ## Numbers -/

theorem isNaN_eq_false_iff : x.isNaN = false ↔ x.rank ≤ infinityRank := by
  simp [isNaN]

/-- A number that is not finite is infinite. -/
theorem rank_of_not_isFinite (hx : x.isNaN = false) (h : x.isFinite = false) :
    x.rank = infinityRank := by
  rw [isNaN_eq_false_iff] at hx
  simp only [isFinite, decide_eq_false_iff_not] at h
  omega

/-- A number that is not less than one that reaches a bound reaches it, too. -/
theorem le_of_lt_eq_false (hx : x.isNaN = false) (h : x.lt x' = false) (hy : y.le x' = true) :
    y.le x = true := by
  obtain ⟨-, hx'⟩ := isNaN_of_le hy
  rw [lt_eq_not_le hx hx', Bool.not_eq_false'] at h
  exact le_trans hy h

/-- The total order has the order of numbers in it. -/
theorem position_lt_of_lt (h : x.lt x' = true) : x.position < x'.position := by
  rw [lt, Bool.and_eq_true] at h
  have hlt := of_decide_eq_true h.2
  rcases x with ⟨_ | _, r⟩ <;> rcases x' with ⟨_ | _, r'⟩ <;>
    simp [signedRank, position] at hlt ⊢ <;> omega

/-! ## The order of ranks -/

/-- Of numbers a function makes numbers of the same sign, and not the lesser rank the greater. -/
structure KeepsOrder (f : Binary64 → Binary64) : Prop where
  number : ∀ x, x.isNaN = false → (f x).isNaN = false
  negative : ∀ x, x.isNaN = false → (f x).negative = x.negative
  rank : ∀ x x', x'.isNaN = false → x.rank ≤ x'.rank → (f x).rank ≤ (f x').rank

theorem KeepsOrder.comp (hg : KeepsOrder g) (hf : KeepsOrder f) : KeepsOrder fun x => g (f x) where
  number x hx := hg.number _ (hf.number x hx)
  negative x hx := (hg.negative _ (hf.number x hx)).trans (hf.negative x hx)
  rank x x' hx' h := hg.rank _ _ (hf.number x' hx') (hf.rank x x' hx' h)

/-- The greater of two numbers stays the greater one, or they become the same. -/
theorem KeepsOrder.position_le (hf : KeepsOrder f) (hx : x.isNaN = false) (hx' : x'.isNaN = false)
    (h : x.position ≤ x'.position) : (f x).position ≤ (f x').position := by
  simp only [position, hf.negative x hx, hf.negative x' hx'] at h ⊢
  cases hs : x.negative with
  | false =>
    cases hs' : x'.negative with
    | false =>
      simp only [hs, hs', Bool.false_eq_true, if_false] at h ⊢
      exact Int.ofNat_le.2 (hf.rank x x' hx' (Int.ofNat_le.1 h))
    | true =>
      simp only [hs, hs', Bool.false_eq_true, if_false, if_true] at h
      omega
  | true =>
    cases hs' : x'.negative with
    | false =>
      simp only [Bool.false_eq_true, if_false, if_true]
      omega
    | true =>
      simp only [hs, hs', if_true] at h ⊢
      -- among negative numbers the greater rank is the lesser number
      have hle := hf.rank x' x hx (by omega)
      omega

/-- A function that keeps the sign and acts on the rank of a finite double alone keeps the order, if
it leaves infinity. -/
theorem keepsOrder_of_rank (ranks : Nat → Nat) (mono : ∀ r r', r ≤ r' → ranks r ≤ ranks r')
    (bounded : ∀ r, ranks r ≤ infinityRank)
    (finite : ∀ x, x.isFinite = true → f x = ⟨x.negative, ranks x.rank⟩)
    (infinite : ∀ x, x.isNaN = false → x.isFinite = false → f x = ⟨x.negative, infinityRank⟩) :
    KeepsOrder f where
  number x hx := by
    rw [isNaN_eq_false_iff]
    cases h : x.isFinite with
    | true =>
      rw [finite x h]
      exact bounded x.rank
    | false => rw [infinite x hx h]
  negative x hx := by
    cases h : x.isFinite with
    | true => rw [finite x h]
    | false => rw [infinite x hx h]
  rank x x' hx' hle := by
    have hx : x.isNaN = false := isNaN_eq_false_iff.2 (hle.trans (isNaN_eq_false_iff.1 hx'))
    cases h' : x'.isFinite with
    | true =>
      rw [finite x (isFinite_of_le h' hle), finite x' h']
      exact mono _ _ hle
    | false =>
      rw [infinite x' hx' h']
      cases h : x.isFinite with
      | true =>
        rw [finite x h]
        exact bounded x.rank
      | false => rw [infinite x hx h]

/-! ## Arithmetic -/

theorem roundQuotient_le_infinityRank (n d : Nat) : roundQuotient n d ≤ infinityRank :=
  Nat.min_le_right _ _

/-- The order is kept where a number is multiplied by `k`, divided by `d`, and rounded. -/
theorem keepsOrder_of_roundQuotient (k d : Nat)
    (finite : ∀ x, x.isFinite = true → f x = ⟨x.negative, roundQuotient (units x.rank * k) d⟩)
    (infinite : ∀ x, x.isNaN = false → x.isFinite = false → f x = ⟨x.negative, infinityRank⟩) :
    KeepsOrder f := by
  refine keepsOrder_of_rank (fun r => roundQuotient (units r * k) d) ?_ ?_ finite infinite
  · intro r r' hle
    exact roundQuotient_mono (Nat.mul_le_mul_right k (units_mono hle)) d
  · exact fun r => roundQuotient_le_infinityRank _ _

/-- Multiplying by a positive finite double keeps the order. -/
theorem keepsOrder_mul (hy : y.isFinite = true) (hsign : y.negative = false)
    (hzero : y.isZero = false) : KeepsOrder (mul · y) := by
  refine keepsOrder_of_roundQuotient (units y.rank) unitsPerOne ?_ ?_
  · intro x hx
    rw [mul_of_isFinite hx hy, hsign, Bool.bne_false]
  · intro x hx hinf
    have hnonzero : x.isZero = false := by
      rw [isZero, rank_of_not_isFinite hx hinf]
      decide
    simp [mul, hx, isNaN_of_isFinite hy, hinf, hnonzero, hzero, hsign]

/-- Dividing by a positive finite double keeps the order. -/
theorem keepsOrder_div (hy : y.isFinite = true) (hsign : y.negative = false)
    (hzero : y.isZero = false) : KeepsOrder (div · y) := by
  refine keepsOrder_of_roundQuotient unitsPerOne (units y.rank) ?_ ?_
  · intro x hx
    simp [div, isNaN_of_isFinite hx, isNaN_of_isFinite hy, hx, hy, hzero, hsign]
  · intro x hx hinf
    simp [div, hx, isNaN_of_isFinite hy, hinf, hy, hsign]

/-- Rounding to a whole number keeps the order. -/
theorem keepsOrder_roundToWhole : KeepsOrder roundToWhole := by
  refine keepsOrder_of_rank
    (fun r => (ofNat ((2 * units r + unitsPerOne) / (2 * unitsPerOne))).rank) ?_ ?_ ?_ ?_
  · intro r r' hle
    refine rank_ofNat_mono (Nat.div_le_div_right ?_)
    have := units_mono hle
    omega
  · exact fun r => roundQuotient_le_infinityRank _ _
  · intro x hx
    simp [roundToWhole, hx]
  · intro x hx hinf
    rw [roundToWhole, if_neg (by simp [hinf]), ← rank_of_not_isFinite hx hinf]

theorem thousand_positive : (ofNat 1000).isFinite = true ∧ (ofNat 1000).negative = false ∧
    (ofNat 1000).isZero = false := by
  decide +kernel

/-- **Rounding to thousandths keeps the order.** -/
theorem keepsOrder_roundToThousandths : KeepsOrder roundToThousandths := by
  obtain ⟨hfinite, hsign, hzero⟩ := thousand_positive
  exact (keepsOrder_div hfinite hsign hzero).comp
    (keepsOrder_roundToWhole.comp (keepsOrder_mul hfinite hsign hzero))

end NearDup.Binary64
