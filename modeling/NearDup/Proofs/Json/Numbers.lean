import NearDup.Proofs.Json.Spelling
import NearDup.Proofs.Number.Shortest

/-!
# Written numbers are read back

The shortest text of a finite double is a proper text of a number: it has few enough digits, and no
double on the way to its value is infinite. So it is read, though not always as the same double, for
the reader rounds more than once.

* `Spelling.ofDouble`, `Spelling.proper_ofDouble` — the parts of the text of a double
* `Reads.natural` — counts are read back
* `Reads.double` — a finite double is read, as what its text names
-/

namespace NearDup

/-- The double that is read where a finite one was written. -/
def Binary64.reread (x : Binary64) : Binary64 :=
  match Json.Reader.double x.shortestText with
  | .ok r => r.1
  | .error _ => x

namespace Json

open Number

variable {c : Char} {bs ds q rest : List Char} {n : Nat} {e : Int}

namespace Spelling

/-! ## Doubles as they are written

The shortest digits are written in one of three ways: with the point among them or behind zeros that
are added, with zeros in front of them, or with an exponent.
-/

theorem isWhole_digits (n : Nat) : IsWhole (digits n) := by
  rcases Nat.eq_zero_or_pos n with rfl | hn
  · exact Or.inl rfl
  · obtain ⟨c, cs, hc⟩ := List.exists_cons_of_length_pos (length_digits_pos n)
    have hhead := head?_digits hn
    rw [hc] at hhead
    exact Or.inr ⟨c, cs, hc, fun h => hhead (by rw [h]; rfl)⟩

theorem isWhole_take (hn : 0 < n) (k : Nat) (more : List Char) :
    IsWhole ((digits n ++ more).take (k + 1)) := by
  obtain ⟨c, cs, hc⟩ := List.exists_cons_of_length_pos (length_digits_pos n)
  have hhead := head?_digits hn
  rw [hc] at hhead ⊢
  exact Or.inr ⟨c, (cs ++ more).take k, rfl, fun h => hhead (by rw [h]; rfl)⟩

theorem isDigit_of_mem_zeros (k : Nat) : ∀ c ∈ List.replicate k '0', isDigit c = true := by
  intro c hc
  rw [List.eq_of_mem_replicate hc]
  rfl

/-- Digits with zeros behind them, at least up to the point and one further. -/
def filled (n whole : Nat) : List Char :=
  digits n ++ List.replicate (whole + 1 - (digits n).length) '0'

theorem length_filled (n whole : Nat) :
    (filled n whole).length = max (digits n).length (whole + 1) := by
  rw [filled, List.length_append, List.length_replicate]
  omega

def pointed (negative : Bool) (n whole : Nat) : Spelling :=
  ⟨negative, (filled n whole).take whole, (filled n whole).drop whole, none⟩

theorem text_pointed (negative : Bool) (n whole : Nat) :
    (pointed negative n whole).text = sign negative ++ Binary64.pointed (digits n) whole := by
  have hne : (filled n whole).drop whole ≠ [] := by
    rw [ne_eq, List.drop_eq_nil_iff, length_filled]
    omega
  rw [text, pointed, pointPart, if_neg hne, exponentPart, List.append_nil]
  rfl

theorem proper_pointed (negative : Bool) (hn : 0 < n) (hlen : (digits n).length ≤ 19) {whole : Nat}
    (hw : whole < 18) : (pointed negative n (whole + 1)).Proper := by
  have hd : ∀ c ∈ filled n (whole + 1), isDigit c = true :=
    List.forall_mem_append.2 ⟨fun _ => isDigit_of_mem_digits, isDigit_of_mem_zeros _⟩
  refine ⟨isWhole_take hn _ _, ?_, ?_, by simp [pointed]⟩
  · rwa [pointed, List.take_append_drop]
  · have hlt := ofDigits_lt hd 0
    have hpow : 10 ^ (filled n (whole + 1)).length ≤ 10 ^ 19 := by
      refine Nat.pow_le_pow_right (by decide) ?_
      rw [length_filled]
      omega
    rw [pointed, significand, List.take_append_drop]
    exact (show _ ≤ 10 ^ 19 by omega).trans (by decide)

def behindZeros (negative : Bool) (n zeros : Nat) : Spelling :=
  ⟨negative, ['0'], List.replicate zeros '0' ++ digits n, none⟩

theorem text_behindZeros (negative : Bool) (n zeros : Nat) : (behindZeros negative n zeros).text =
    sign negative ++ '0' :: '.' :: (List.replicate zeros '0' ++ digits n) := by
  have hne : List.replicate zeros '0' ++ digits n ≠ [] := by
    simp [(isWhole_digits n).ne_nil]
  rw [text, behindZeros, pointPart, if_neg hne, exponentPart, List.append_nil]
  rfl

theorem proper_behindZeros (negative : Bool) (hn : n ≤ largestNatural) (zeros : Nat) :
    (behindZeros negative n zeros).Proper := by
  refine ⟨Or.inl rfl, ?_, ?_, by simp [behindZeros]⟩
  · exact List.forall_mem_append.2 ⟨List.forall_mem_singleton.2 rfl,
      List.forall_mem_append.2 ⟨isDigit_of_mem_zeros _, fun _ => isDigit_of_mem_digits⟩⟩
  · have hvalue := ofDigits_replicate_zero (zeros + 1) (digits n)
    rw [ofDigits_digits] at hvalue
    exact hvalue.trans_le hn

def scientific (negative : Bool) (n : Nat) (e : Int) : Spelling :=
  ⟨negative, (digits n).take 1, (digits n).drop 1, some (e < 0, digits e.natAbs)⟩

theorem text_scientific (negative : Bool) (n : Nat) (e : Int) : (scientific negative n e).text =
    sign negative ++ ((if (digits n).length = 1 then digits n
      else (digits n).take 1 ++ '.' :: (digits n).drop 1) ++
        'e' :: (if e < 0 then '-' else '+') :: digits e.natAbs) := by
  have hpos := length_digits_pos n
  have hnil : (digits n).drop 1 = [] ↔ (digits n).length = 1 := by
    rw [List.drop_eq_nil_iff]
    omega
  have hsign : exponentSign (decide (e < 0)) = if e < 0 then '-' else '+' := by
    simp [exponentSign]
  rw [text, scientific, exponentPart, pointPart, hsign]
  by_cases hone : (digits n).length = 1
  · rw [if_pos (hnil.2 hone), if_pos hone, List.take_of_length_le hone.le, List.nil_append]
  · rw [if_neg (mt hnil.1 hone), if_neg hone, List.append_assoc]

theorem proper_scientific (negative : Bool) (hn : 0 < n) (hfits : n ≤ largestNatural)
    (he : e.natAbs ≤ largestExponent) (hreach : InReach n (max 0 (e + 1 - (digits n).length))) :
    (scientific negative n e).Proper := by
  have hall : (digits n).take 1 ++ (digits n).drop 1 = digits n := List.take_append_drop ..
  have hsig : (scientific negative n e).significand = n := by
    rw [significand, scientific, hall, ofDigits_digits]
  have hwhole := isWhole_take hn 0 []
  rw [List.append_nil] at hwhole
  refine ⟨hwhole, fun c hc => ?_, hsig.trans_le hfits, ?_⟩
  · rw [scientific, hall] at hc
    exact isDigit_of_mem_digits hc
  · intro down ds heq
    cases heq
    have hpos := length_digits_pos n
    have hvalue : exponentValue (decide (e < 0)) (digits e.natAbs) = e := by
      simp only [exponentValue, decide_eq_true_eq, ofDigits_digits]
      split <;> omega
    have hlast : e - (((digits n).drop 1).length : Int) = e + 1 - (digits n).length := by
      rw [List.length_drop]
      omega
    rw [hsig, hvalue, scientific, hlast, ofDigits_digits]
    exact ⟨(isWhole_digits _).ne_nil, fun _ => isDigit_of_mem_digits, he, hreach⟩

/-- The parts of the text of significant digits. -/
def ofSignificant (negative : Bool) (s : Binary64.Significant) : Spelling :=
  if 0 ≤ s.exponent ∧ s.exponent ≤ 15 then pointed negative s.digits (s.exponent.toNat + 1)
  else if -5 ≤ s.exponent ∧ s.exponent < 0 then
    behindZeros negative s.digits ((-s.exponent).toNat - 1)
  else scientific negative s.digits s.exponent

theorem text_ofSignificant (negative : Bool) (s : Binary64.Significant) :
    (ofSignificant negative s).text = sign negative ++ Binary64.significantText s := by
  unfold ofSignificant Binary64.significantText
  simp only
  split
  · exact text_pointed ..
  · split
    · exact text_behindZeros ..
    · exact text_scientific ..

/-- The parts of the text of a double. -/
def ofDouble (x : Binary64) : Spelling :=
  if x.isZero then ⟨x.negative, ['0'], ['0'], none⟩
  else ofSignificant x.negative (Binary64.shortest x.rank)

theorem text_ofDouble (x : Binary64) : (ofDouble x).text = x.shortestText := by
  unfold ofDouble Binary64.shortestText
  split
  · rfl
  · exact text_ofSignificant ..

theorem proper_ofDouble {x : Binary64} (hx : x.isFinite = true) : (ofDouble x).Proper := by
  simp only [Binary64.isFinite, decide_eq_true_eq] at hx
  unfold ofDouble
  split
  · have hvalue : ofDigits 0 ['0', '0'] = 0 := rfl
    exact ⟨Or.inl rfl, isDigit_of_mem_zeros 2, hvalue.trans_le (Nat.zero_le _), by simp⟩
  · next hzero =>
    have hr : 0 < x.rank := by simpa [Binary64.isZero, Nat.pos_iff_ne_zero] using hzero
    obtain ⟨_, _, _, -, -, -, hpos, hle, -⟩ := Binary64.exists_shortest hr
    have hexp := Binary64.natAbs_exponent_shortest_lt hr hx
    have hreach : InReach (Binary64.shortest x.rank).digits
        (max 0 (Binary64.shortest x.rank).last) :=
      fun k hk => Binary64.isFinite_shortest_mul hr hx hk
    have hfits := hle.trans (show 10 ^ 17 ≤ largestNatural by decide)
    unfold ofSignificant
    split
    · exact proper_pointed _ hpos (length_digits_le (by decide) (by omega)) (by omega)
    · split
      · exact proper_behindZeros _ hfits _
      · exact proper_scientific _ hpos hfits (hexp.le.trans (by decide)) hreach

end Spelling

/-! ## Readers of numbers -/

open Spelling

theorem Spelling.Starts.isBlank (h : Starts c) : isBlank c = false := by
  by_contra hblank
  rcases isBlank_cases (Bool.eq_true_of_not_eq_false hblank) with rfl | rfl | rfl | rfl
  all_goals exact absurd h (by unfold Starts; decide)

theorem Spelling.Starts.ne_bracket (h : Starts c) : c ≠ ']' := by
  rintro rfl
  exact absurd h (by unfold Starts; decide)

theorem numeral_append (hb : Blanks bs) (hc : Starts c) (cs : List Char) :
    Reader.numeral (bs ++ c :: cs) = readNumber (c :: cs) := by
  rw [Reader.numeral, skipBlanks_append hb, skipBlanks_cons hc.isBlank]
  rcases hc with rfl | hc
  · rfl
  · simp [hc]

theorem numeral_nil (hb : Blanks bs) : Reader.numeral (bs ++ []) = .error .cutShort := by
  rw [Reader.numeral, skipBlanks_append hb]
  rfl

theorem numeral_text {s : Spelling} (hs : s.Proper) (hb : Blanks bs) (rest : List Char) :
    Reader.numeral (bs ++ (s.text ++ rest)) = readNumber (s.text ++ rest) := by
  obtain ⟨c, more, htext, hc⟩ := hs.exists_text_eq_cons
  rw [htext, List.cons_append, numeral_append hb hc]

/-- What is left of a number is too short, or is read as a number. -/
theorem numeral_cut {s : Spelling} (hs : s.Proper) (hb : Blanks bs) (hq : Cut s.text q) :
    Reader.numeral (bs ++ q) = .error .cutShort ∨ ∃ v, Reader.numeral (bs ++ q) = .ok (v, []) := by
  rcases hs.cut hq with hshort | ⟨s', hs', rfl⟩
  · obtain ⟨c, more, htext, hc⟩ := hs.exists_text_eq_cons
    rw [htext] at hq
    left
    rcases cut_cons.1 hq with rfl | ⟨q, rfl, -⟩
    · exact numeral_nil hb
    · rw [numeral_append hb hc, hshort]
  · obtain ⟨v, hv⟩ := hs'.read
    have htext := numeral_text hs' hb []
    rw [hv [] apart_nil, List.append_nil] at htext
    exact Or.inr ⟨v, htext⟩

/-- Digits alone are read as a count. -/
theorem natural_digits (hw : IsWhole ds) (hd : ∀ c ∈ ds, isDigit c = true)
    (hfits : ofDigits 0 ds ≤ largestNatural) (hb : Blanks bs) (hrest : Apart rest) :
    Reader.natural (bs ++ (ds ++ rest)) = .ok (ofDigits 0 ds, rest) := by
  obtain ⟨c, cs, rfl⟩ := List.exists_cons_of_ne_nil hw.ne_nil
  have hread := readNumber_whole hw hd hfits hrest.digit false
  rw [sign, if_neg Bool.false_ne_true, List.nil_append, readAfterWhole, hrest.double] at hread
  rw [Reader.natural, List.cons_append, numeral_append hb (Or.inr (hd c List.mem_cons_self)),
    ← List.cons_append, hread]
  rfl

/-- **A count that fits 64 bits is read back.** -/
theorem Reads.natural (hn : n ≤ largestNatural) : Reads [] Reader.natural (Writer.nat n) n where
  begins _ _ := by
    obtain ⟨c, cs, hc⟩ := List.exists_cons_of_ne_nil (isWhole_digits n).ne_nil
    have hstart : Starts c := Or.inr (isDigit_of_mem_digits (n := n) (by rw [hc]; simp))
    exact ⟨c, cs, hc, hstart.isBlank, hstart.ne_bracket⟩
  whole _ _ bs rest _ hb hrest := by
    have hread := natural_digits (isWhole_digits n) (fun _ => isDigit_of_mem_digits)
      (by rwa [ofDigits_digits]) hb hrest
    rwa [ofDigits_digits] at hread
  cut _ _ bs q _ hb hq := by
    by_cases hne : q = []
    · rw [hne, List.append_nil, Reader.natural, numeral_nil hb]
      exact .lost (.failed fun _ => rfl)
    · have hw := (isWhole_digits n).cut hq hne
      have hd : ∀ c ∈ q, isDigit c = true := fun c hc => isDigit_of_mem_digits (hq.mem hc)
      obtain ⟨off, -, hoff⟩ := hq
      have hle : ofDigits 0 q ≤ ofDigits 0 (q ++ off) := ofDigits_le_append _ _ _
      rw [← hoff, Writer.nat, ofDigits_digits] at hle
      rw [natural_digits hw hd (hle.trans hn) hb apart_nil]
      exact .ended rfl

/-- **A finite double is read back**, as what its text names. -/
theorem Reads.double {x : Binary64} (hx : x.isFinite = true) :
    Reads [] Reader.double (Writer.double x) x.reread := by
  have hs := proper_ofDouble hx
  obtain ⟨v, hv⟩ := hs.read
  have hwrite : ∀ layout depth, Writer.double x layout depth = (ofDouble x).text := by
    intro layout depth
    rw [Writer.double, if_pos hx, text_ofDouble]
  have hread : ∀ bs rest, Blanks bs → Apart rest →
      Reader.double (bs ++ ((ofDouble x).text ++ rest)) = .ok (v.toDouble, rest) := by
    intro bs rest hb hrest
    rw [Reader.double, numeral_text hs hb, hv rest hrest]
    rfl
  have hagain : x.reread = v.toDouble := by
    have h := hread [] [] blanks_nil apart_nil
    rw [List.nil_append, List.append_nil, text_ofDouble] at h
    rw [Binary64.reread, h]
  refine ⟨fun layout depth => ?_, fun layout depth bs rest _ hb hrest => ?_,
    fun layout depth bs q _ hb hq => ?_⟩
  · obtain ⟨c, more, htext, hc⟩ := hs.exists_text_eq_cons
    exact ⟨c, more, (hwrite layout depth).trans htext, hc.isBlank, hc.ne_bracket⟩
  · rw [hwrite, hread bs rest hb hrest, hagain]
  · rw [hwrite] at hq
    rw [List.append_nil, Reader.double]
    rcases numeral_cut hs hb hq with h | ⟨w, h⟩
    · rw [h]
      exact .lost (.failed fun _ => rfl)
    · rw [h]
      exact .ended rfl

end Json

end NearDup
