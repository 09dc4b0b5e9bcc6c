import NearDup.Proofs.Json.Values
import NearDup.Proofs.Number.Digits

/-!
# The text of a number

The text of a number has a sign, a whole part, a fraction and an exponent, and each is read up to
its end. Cut off within one of them, at least one digit being left, it is the text of another
number; cut off anywhere else, the reader comes to the end of the text where a digit is missing.

* `Spelling` — the parts of the text of a number, and what is proper for them
* `Spelling.Proper.read` — the text of a number is read, whatever stands behind it
* `Spelling.Proper.cut` — what is left of it is the text of a number, or too short
-/

namespace NearDup.Json

open Number

variable {c : Char} {ds q rest : List Char} {n k limit : Nat} {e : Int}

/-! ## Digits -/

theorem startsWithDigit_append (h : ∀ c ∈ ds, isDigit c = true) (hne : ds ≠ []) (rest : List Char) :
    startsWithDigit (ds ++ rest) = true := by
  cases ds with
  | nil => exact absurd rfl hne
  | cons d ds => exact h d List.mem_cons_self

/-- Digits are taken as long as the limit is not passed. -/
theorem takeDigits_append (h : ∀ c ∈ ds, isDigit c = true) (hrest : startsWithDigit rest = false)
    (hl : ofDigits n ds ≤ limit) (k : Nat) :
    takeDigits limit n k (ds ++ rest) = (ofDigits n ds, k + ds.length, rest) := by
  induction ds generalizing n k with
  | nil =>
    cases rest with
    | nil => rfl
    | cons c rest =>
      have hc : isDigit c = false := hrest
      simp [takeDigits, hc, ofDigits]
  | cons d ds ih =>
    obtain ⟨hd, hds⟩ := List.forall_mem_cons.1 h
    have hle : n * 10 + digitValue d ≤ limit := (le_ofDigits _ ds).trans hl
    rw [List.cons_append, takeDigits, if_pos (by simp [hd, hle]), ih hds hl]
    simp [ofDigits, Nat.add_assoc, Nat.add_comm 1]

/-! ## Doubles in reach -/

/-- No power of ten up to the exponent makes an infinite product with the number. -/
def InReach (n : Nat) (e : Int) : Prop :=
  ∀ k : Nat, k ≤ e → k < 309 ∧ ((Binary64.ofNat n).mul (.ofNat (10 ^ k))).isFinite = true

/-- A number that is divided stays in reach. -/
theorem exists_scale_of_neg (fuel : Nat) (x : Binary64) (h : e < 0) :
    ∃ y, scale fuel x e = .ok y := by
  induction fuel generalizing x e with
  | zero => exact ⟨x, rfl⟩
  | succ fuel ih =>
    have hneg : ¬0 ≤ e := by omega
    change ∃ y, (if e.natAbs ≤ 308 then if 0 ≤ e then _ else _
      else if x.isZero then _ else if 0 ≤ e then _ else scale fuel _ _) = .ok y
    rw [if_neg hneg, if_neg hneg]
    split
    · exact ⟨_, rfl⟩
    · split
      · exact ⟨_, rfl⟩
      · exact ih _ (by omega)

theorem InReach.exists_doubleOf (h : InReach n e) (negative : Bool) (e' : Int)
    (he : e' ≤ e ∨ e' < 0) : ∃ x, doubleOf negative n e' = .ok x := by
  unfold doubleOf
  rcases lt_or_ge e' 0 with hneg | hpos
  · obtain ⟨x, hx⟩ := exists_scale_of_neg 4 (.ofNat n) hneg
    exact ⟨signed negative x, by rw [hx]; rfl⟩
  · obtain ⟨k, rfl⟩ := Int.eq_ofNat_of_zero_le hpos
    obtain ⟨hk, hfin⟩ := h k (by omega)
    have hscale : scale 4 (.ofNat n) k = .ok ((Binary64.ofNat n).mul (.ofNat (10 ^ k))) := by
      change (if (k : Int).natAbs ≤ 308 then if 0 ≤ (k : Int) then _ else _ else _) = _
      rw [Int.natAbs_natCast, if_pos (show k ≤ 308 by omega), if_pos hpos]
      exact if_pos hfin
    exact ⟨signed negative ((Binary64.ofNat n).mul (.ofNat (10 ^ k))), by rw [hscale]; rfl⟩

/-! ## The parts of a number -/

/-- The parts of the text of a number. The exponent has a sign in any case: is it a minus? -/
structure Spelling where
  negative : Bool
  whole : List Char
  fraction : List Char
  exponent : Option (Bool × List Char)

namespace Spelling

/-- A minus, or nothing. -/
def sign (negative : Bool) : List Char := if negative then ['-'] else []

/-- A point and the fraction, if there is one. -/
def pointPart (fraction : List Char) : List Char := if fraction = [] then [] else '.' :: fraction

def exponentSign (down : Bool) : Char := if down then '-' else '+'

/-- A letter and the exponent, if there is one. -/
def exponentPart : Option (Bool × List Char) → List Char
  | none => []
  | some (down, ds) => 'e' :: exponentSign down :: ds

def text (s : Spelling) : List Char :=
  sign s.negative ++ (s.whole ++ (pointPart s.fraction ++ exponentPart s.exponent))

/-- The number that the digits stand for, without regard to the point. -/
def significand (s : Spelling) : Nat := ofDigits 0 (s.whole ++ s.fraction)

def exponentValue (down : Bool) (ds : List Char) : Int :=
  if down then -(ofDigits 0 ds : Int) else ofDigits 0 ds

/-- Digits without a zero in front, unless it is the only one. -/
def IsWhole (cs : List Char) : Prop := cs = ['0'] ∨ ∃ c more, cs = c :: more ∧ c ≠ '0'

/-- The digits fit 64 bits and the exponent 31, and the number is in reach, also with an exponent
that is closer to zero. -/
structure Proper (s : Spelling) : Prop where
  whole : IsWhole s.whole
  digits : ∀ c ∈ s.whole ++ s.fraction, isDigit c = true
  fits : s.significand ≤ largestNatural
  exponent : ∀ down ds, s.exponent = some (down, ds) → ds ≠ [] ∧ (∀ c ∈ ds, isDigit c = true) ∧
    ofDigits 0 ds ≤ largestExponent ∧
      InReach s.significand (max 0 (exponentValue down ds - s.fraction.length))

end Spelling

/-! ## Reading the parts -/

open Spelling

/-- The whole part is read up to its end. -/
theorem readUnsigned_whole (hw : IsWhole ds) (hd : ∀ c ∈ ds, isDigit c = true)
    (hfits : ofDigits 0 ds ≤ largestNatural) (hrest : startsWithDigit rest = false)
    (negative : Bool) :
    readUnsigned negative (ds ++ rest) = readAfterWhole negative (ofDigits 0 ds) rest := by
  rcases hw with rfl | ⟨c, cs, rfl, hc⟩
  · have hzero : readUnsigned negative ('0' :: rest) =
        if startsWithDigit rest then .error .malformed else readAfterWhole negative 0 rest := rfl
    rw [List.singleton_append, hzero, hrest]
    rfl
  · have hstart := startsWithDigit_append hd (by simp) rest
    have htake := takeDigits_append hd hrest hfits 0
    rw [List.cons_append] at hstart htake ⊢
    unfold readUnsigned
    simp only [reduceCtorEq, if_false, hstart, Bool.not_true, Bool.false_eq_true, bind, Except.bind]
    split
    · next h =>
      rw [List.cons.injEq] at h
      exact absurd h.1 hc
    · rw [htake]
      simp [hrest]

/-- The sign is read, and then the whole part. -/
theorem readNumber_whole (hw : IsWhole ds) (hd : ∀ c ∈ ds, isDigit c = true)
    (hfits : ofDigits 0 ds ≤ largestNatural) (hrest : startsWithDigit rest = false)
    (negative : Bool) : readNumber (sign negative ++ (ds ++ rest)) =
      readAfterWhole negative (ofDigits 0 ds) rest := by
  cases negative with
  | true => exact readUnsigned_whole hw hd hfits hrest true
  | false =>
    refine Eq.trans ?_ (readUnsigned_whole hw hd hfits hrest false)
    have hne : ds ≠ [] := by rcases hw with rfl | ⟨c, cs, rfl, -⟩ <;> simp
    have hstart := startsWithDigit_append hd hne rest
    unfold readNumber
    simp only [sign, Bool.false_eq_true, if_false, List.nil_append]
    split
    · next h =>
      rw [h] at hstart
      cases hstart
    · rfl

/-- The fraction is read up to its end. -/
theorem readFraction_append (hne : ds ≠ []) (hd : ∀ c ∈ ds, isDigit c = true)
    (hfits : ofDigits n ds ≤ largestNatural) (hrest : startsWithDigit rest = false)
    (negative : Bool) (e : Int) : readFraction negative n e (ds ++ rest) =
      readTail negative (ofDigits n ds) (e - ds.length) rest := by
  have hlen : ds.length ≠ 0 := by simpa using hne
  rw [readFraction, takeDigits_append hd hrest hfits]
  simp [hrest, hlen]

theorem readAfterWhole_letter (negative : Bool) (n : Nat) (more : List Char) :
    readAfterWhole negative n ('e' :: more) =
      (readTail negative n 0 ('e' :: more)).map fun r => (.double r.1, r.2) := by
  have hpoint : readAfterWhole negative n ('e' :: more) =
      readTail negative n 0 ('e' :: more) >>= fun r => pure (.double r.1, r.2) := rfl
  rw [hpoint]
  cases readTail negative n 0 ('e' :: more) <;> rfl

theorem readAfterWhole_point (negative : Bool) (n : Nat) (more : List Char) :
    readAfterWhole negative n ('.' :: more) =
      (readFraction negative n 0 more).map fun r => (.double r.1, r.2) := by
  have hpoint : readAfterWhole negative n ('.' :: more) =
      readFraction negative n 0 more >>= fun r => pure (.double r.1, r.2) := rfl
  rw [hpoint]
  cases readFraction negative n 0 more <;> rfl

/-- Up to the exponent or the end of a number that is no whole number. -/
theorem readNumber_fraction {s : Spelling} (hs : s.Proper) (rest : List Char)
    (hrest : startsWithDigit rest = false) (hf : s.fraction ≠ [] ∨ ∃ more, rest = 'e' :: more) :
    readNumber (sign s.negative ++ (s.whole ++ (pointPart s.fraction ++ rest))) =
      (readTail s.negative s.significand (-(s.fraction.length : Int)) rest).map
        fun r => (.double r.1, r.2) := by
  have hsplit : s.significand = ofDigits (ofDigits 0 s.whole) s.fraction := ofDigits_append ..
  have hfits := hs.fits
  rw [hsplit] at hfits ⊢
  obtain ⟨hw, hd⟩ := List.forall_mem_append.1 hs.digits
  have hwhole := (le_ofDigits _ s.fraction).trans hfits
  by_cases hnil : s.fraction = []
  · obtain ⟨more, rfl⟩ := hf.resolve_left (fun h => h hnil)
    rw [hnil, pointPart, if_pos rfl, List.nil_append, readNumber_whole hs.whole hw hwhole rfl,
      readAfterWhole_letter]
    rfl
  · rw [pointPart, if_neg hnil, List.cons_append, readNumber_whole hs.whole hw hwhole rfl,
      readAfterWhole_point, readFraction_append hnil hd hfits hrest, Int.zero_sub]

theorem takeSign_exponentSign (down : Bool) (rest : List Char) :
    takeSign (exponentSign down :: rest) = (down, rest) := by cases down <;> rfl

/-- The exponent is read up to its end. -/
theorem readTail_exponent (hne : ds ≠ []) (hd : ∀ c ∈ ds, isDigit c = true)
    (hfits : ofDigits 0 ds ≤ largestExponent) (hrest : startsWithDigit rest = false)
    (negative : Bool) (n : Nat) (e : Int) (down : Bool) :
    readTail negative n e ('e' :: exponentSign down :: (ds ++ rest)) =
      (doubleOf negative n (exponentValue down ds + e)).map fun x => (x, rest) := by
  have hstart := startsWithDigit_append hd hne rest
  have hcons : ds ++ rest ≠ [] := by simp [hne]
  have hvalue : (if down then e - (ofDigits 0 ds : Int) else e + (ofDigits 0 ds : Int)) =
      exponentValue down ds + e := by
    unfold exponentValue
    split <;> omega
  simp only [readTail, readExponent, takeSign_exponentSign, takeDigits_append hd hrest hfits,
    hstart, hcons, hrest, hvalue, if_false, Bool.not_true, Bool.false_eq_true, bind, Except.bind,
    pure, Except.pure]
  cases doubleOf negative n (exponentValue down ds + e) <;> rfl

/-- Without an exponent, the number ends there. -/
theorem readTail_apart (h : Apart rest) (negative : Bool) (n : Nat) (e : Int) :
    readTail negative n e rest = (doubleOf negative n e).map fun x => (x, rest) := by
  have hdouble := h.double
  unfold readTail
  split
  · cases hdouble
  · cases hdouble
  · cases doubleOf negative n e <;> rfl

/-- An exponent without digits is too short. -/
theorem readTail_cutShort (negative : Bool) (n : Nat) (e : Int) (down : Bool) :
    readTail negative n e ['e'] = .error .cutShort ∧
      readTail negative n e ['e', exponentSign down] = .error .cutShort := by
  cases down <;> exact ⟨rfl, rfl⟩

/-! ## Whole numbers and doubles -/

namespace Spelling

theorem IsWhole.ne_nil (h : IsWhole ds) : ds ≠ [] := by
  rcases h with rfl | ⟨c, cs, rfl, -⟩ <;> simp

/-- **The text of a number is read**, whatever stands behind it. -/
theorem Proper.read {s : Spelling} (hs : s.Proper) :
    ∃ v, ∀ rest, Apart rest → readNumber (s.text ++ rest) = .ok (v, rest) := by
  obtain ⟨negative, whole, fraction, exponent⟩ := s
  have hneg : -(fraction.length : Int) < 0 ∨ fraction = [] := by
    cases fraction with
    | nil => exact Or.inr rfl
    | cons d ds => exact Or.inl (by simp only [List.length_cons]; omega)
  cases exponent with
  | some parts =>
    obtain ⟨down, ds⟩ := parts
    obtain ⟨hne, hd, hfits, hreach⟩ := hs.exponent down ds rfl
    obtain ⟨x, hx⟩ := hreach.exists_doubleOf negative
      (exponentValue down ds + -(fraction.length : Int)) (Or.inl (le_max_right _ _))
    refine ⟨.double x, fun rest hrest => ?_⟩
    have hread := readNumber_fraction hs (exponentPart (some (down, ds)) ++ rest) rfl
      (Or.inr ⟨_, rfl⟩)
    simp only [text, List.append_assoc, hread]
    simp only [exponentPart, List.cons_append, readTail_exponent hne hd hfits hrest.digit, hx]
    rfl
  | none =>
    obtain ⟨hw, hd⟩ := List.forall_mem_append.1 hs.digits
    rcases hneg with hneg | rfl
    · obtain ⟨x, hx⟩ := InReach.exists_doubleOf (n := ofDigits 0 (whole ++ fraction)) (e := -1)
        (fun k hk => absurd hk (by omega)) negative _ (Or.inr hneg)
      refine ⟨.double x, fun rest hrest => ?_⟩
      have hread := readNumber_fraction hs rest hrest.digit
        (Or.inl (show fraction ≠ [] by rintro rfl; simp at hneg))
      simp only [text, exponentPart, List.append_nil, List.append_assoc, hread]
      rw [readTail_apart hrest, significand, hx]
      rfl
    · have hfits : ofDigits 0 whole ≤ largestNatural := by simpa [significand] using hs.fits
      refine ⟨wholeNumeral negative (ofDigits 0 whole), fun rest hrest => ?_⟩
      have hread := readNumber_whole hs.whole hw hfits hrest.digit negative
      simp only [text, pointPart, exponentPart, if_true, List.append_nil, List.append_assoc, hread]
      rw [readAfterWhole, hrest.double]
      rfl

theorem IsWhole.cut (h : IsWhole ds) (hq : Cut ds q) (hne : q ≠ []) : IsWhole q := by
  obtain ⟨off, -, rfl⟩ := hq
  obtain ⟨c, q, rfl⟩ := List.exists_cons_of_ne_nil hne
  rcases h with h | ⟨d, more, h, hd⟩
  · rw [List.cons_append, List.cons.injEq, List.append_eq_nil_iff] at h
    obtain ⟨rfl, rfl, -⟩ := h
    exact Or.inl rfl
  · rw [List.cons_append, List.cons.injEq] at h
    exact Or.inr ⟨c, q, rfl, h.1 ▸ hd⟩

/-- Without an exponent, a number with fewer digits is proper too. -/
theorem Proper.front {s : Spelling} (hs : s.Proper) {whole : List Char} (hw : IsWhole whole)
    (fraction : List Char) (h : whole ++ fraction <+: s.whole ++ s.fraction) :
    (⟨s.negative, whole, fraction, none⟩ : Spelling).Proper where
  whole := hw
  digits c hc := hs.digits c (h.subset hc)
  fits := by
    obtain ⟨off, hoff⟩ := h
    refine Nat.le_trans ?_ hs.fits
    rw [significand, significand, ← hoff]
    exact ofDigits_le_append _ _ _
  exponent := by simp

/-- Cut off within the fraction. -/
theorem Proper.cut_fraction {s : Spelling} (hs : s.Proper) (hq : Cut (pointPart s.fraction) q) :
    readNumber (sign s.negative ++ (s.whole ++ q)) = .error .cutShort ∨
      ∃ s' : Spelling, s'.Proper ∧ s'.text = sign s.negative ++ (s.whole ++ q) := by
  have hne : s.fraction ≠ [] := by
    intro hnil
    rw [pointPart, if_pos hnil] at hq
    exact absurd hq cut_nil
  rw [pointPart, if_neg hne] at hq
  rcases cut_cons.1 hq with rfl | ⟨ds, rfl, hds⟩
  · exact Or.inr ⟨_, hs.front hs.whole [] (by simp), by simp [text, pointPart, exponentPart]⟩
  · by_cases hnil : ds = []
    · subst hnil
      obtain ⟨hw, -⟩ := List.forall_mem_append.1 hs.digits
      have hfits : ofDigits 0 s.whole ≤ largestNatural :=
        (ofDigits_le_append _ _ s.fraction).trans hs.fits
      left
      rw [readNumber_whole hs.whole hw hfits rfl, readAfterWhole_point]
      rfl
    · obtain ⟨off, -, hoff⟩ := hds
      have hfront : s.whole ++ ds <+: s.whole ++ s.fraction := by
        rw [hoff]
        exact (List.prefix_append_right_inj _).2 (List.prefix_append ds off)
      exact Or.inr ⟨_, hs.front hs.whole ds hfront, by simp [text, pointPart, exponentPart, hnil]⟩

theorem exponentValue_le (down : Bool) (h : ofDigits 0 q ≤ ofDigits 0 ds) :
    exponentValue down q ≤ max 0 (exponentValue down ds) := by
  unfold exponentValue
  cases down with
  | true => simp
  | false =>
    simp only [Bool.false_eq_true, if_false]
    omega

/-- Cut off within the exponent. -/
theorem Proper.cut_exponent {s : Spelling} (hs : s.Proper) (hq : Cut (exponentPart s.exponent) q) :
    readNumber (sign s.negative ++ (s.whole ++ (pointPart s.fraction ++ q))) = .error .cutShort ∨
      ∃ s' : Spelling, s'.Proper ∧
        s'.text = sign s.negative ++ (s.whole ++ (pointPart s.fraction ++ q)) := by
  have hfront := hs.front hs.whole _ (List.prefix_refl (s.whole ++ s.fraction))
  obtain ⟨negative, whole, fraction, exponent⟩ := s
  cases exponent with
  | none => exact absurd hq cut_nil
  | some parts =>
    obtain ⟨down, ds⟩ := parts
    obtain ⟨-, hd, hfits, hreach⟩ := hs.exponent down ds rfl
    have hshort := readTail_cutShort negative (ofDigits 0 (whole ++ fraction))
      (-(fraction.length : Int)) down
    rcases cut_cons.1 hq with rfl | ⟨q, rfl, hsign⟩
    · exact Or.inr ⟨_, hfront, rfl⟩
    rcases cut_cons.1 hsign with rfl | ⟨q, rfl, hds⟩
    · left
      rw [readNumber_fraction hfront _ rfl (Or.inr ⟨_, rfl⟩), significand, hshort.1]
      rfl
    by_cases hnil : q = []
    · left
      subst hnil
      rw [readNumber_fraction hfront _ rfl (Or.inr ⟨_, rfl⟩), significand, hshort.2]
      rfl
    · obtain ⟨off, -, rfl⟩ := hds
      have hle : ofDigits 0 q ≤ ofDigits 0 (q ++ off) := ofDigits_le_append _ _ _
      refine Or.inr ⟨⟨negative, whole, fraction, some (down, q)⟩,
        ⟨hs.whole, hs.digits, hs.fits, ?_⟩, rfl⟩
      intro down' ds' heq
      cases heq
      have hexp := exponentValue_le down hle
      exact ⟨hnil, fun c hc => hd c (List.mem_append_left _ hc), hle.trans hfits,
        fun k hk => hreach k (by dsimp only at hk ⊢; omega)⟩

/-- **What is left of the text of a number** is the text of a number too, or is too short. -/
theorem Proper.cut {s : Spelling} (hs : s.Proper) (hq : Cut s.text q) :
    readNumber q = .error .cutShort ∨ ∃ s' : Spelling, s'.Proper ∧ s'.text = q := by
  rcases cut_append hq with hsign | ⟨body, rfl, hbody⟩
  · left
    cases hneg : s.negative with
    | false =>
      rw [hneg] at hsign
      exact absurd hsign cut_nil
    | true =>
      rw [hneg] at hsign
      rw [Cut.eq_nil hsign]
      rfl
  rcases cut_append hbody with hcut | ⟨tail, rfl, htail⟩
  · by_cases hnil : body = []
    · left
      rw [hnil]
      cases s.negative <;> rfl
    · obtain ⟨off, -, hoff⟩ := id hcut
      have hfront : body ++ [] <+: s.whole ++ s.fraction := by
        rw [hoff, List.append_nil, List.append_assoc]
        exact List.prefix_append _ _
      exact Or.inr ⟨_, hs.front (hs.whole.cut hcut hnil) [] hfront, by
        simp [text, pointPart, exponentPart]⟩
  rcases cut_append htail with hpoint | ⟨last, rfl, hlast⟩
  · exact hs.cut_fraction hpoint
  · exact hs.cut_exponent hlast

/-- A number begins with a minus or a digit. -/
def Starts (c : Char) : Prop := c = '-' ∨ isDigit c = true

theorem Proper.exists_text_eq_cons {s : Spelling} (hs : s.Proper) :
    ∃ c more, s.text = c :: more ∧ Starts c := by
  obtain ⟨d, ds, hd⟩ := List.exists_cons_of_ne_nil hs.whole.ne_nil
  have hdigit : isDigit d = true := hs.digits d (by simp [hd])
  unfold text
  cases s.negative with
  | true => exact ⟨'-', _, rfl, Or.inl rfl⟩
  | false =>
    rw [hd]
    exact ⟨d, _, rfl, Or.inr hdigit⟩

end Spelling

end NearDup.Json
