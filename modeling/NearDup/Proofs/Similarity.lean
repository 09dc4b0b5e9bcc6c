import Mathlib.Algebra.Order.Field.Basic
import Mathlib.Data.List.Infix
import Mathlib.Data.Rat.Cast.Order
import NearDup.Proofs.Align.Division
import NearDup.Proofs.Number.Rounding
import NearDup.Proofs.Ranking

/-!
# What the similarity of two texts means

The alignment is greedy, so the elements it matches need not be as many as two sequences can have in
common. They lie between two measures that know nothing of blocks: the longest run that both
sequences contain, which is the first block or shorter, and the longest subsequence of both, for
what is shared is one. At the ends the share is exact. It is one only for equal sequences, because a
subsequence as long as the sequence is all of it, and zero only for sequences without a common
element, because one such element is a run.

* `CommonRun`, `CommonSubsequence`, `IsLongest` — what two sequences have in common
* `length_le_totalSize`, `length_shared` — the matched elements between the two measures
* `value_matchedShare_eq_one_iff`, `value_matchedShare_eq_zero_iff` — both ends of the scale
* `matchedShare_between` — all of this, and the pairs of an analysis stay below one
-/

namespace NearDup

namespace Align

variable {α : Type} {xs ys zs : List α} {ms ns : List Block}

/-! ## What two sequences have in common -/

/-- A stretch of consecutive elements of both sequences. -/
def CommonRun (xs ys zs : List α) : Prop := zs <:+: xs ∧ zs <:+: ys

/-- Elements of both sequences in the order of both, not necessarily side by side. -/
def CommonSubsequence (xs ys zs : List α) : Prop := zs.Sublist xs ∧ zs.Sublist ys

/-- No other list with a property is longer. -/
def IsLongest (P : List α → Prop) (zs : List α) : Prop :=
  P zs ∧ ∀ zs', P zs' → zs'.length ≤ zs.length

theorem exists_isLongest {P : List α → Prop} {n : Nat} (h : P zs)
    (hbound : ∀ zs', P zs' → zs'.length ≤ n) : ∃ zs', IsLongest P zs' := by
  -- by how much the bound is missed cannot fall for ever
  induction hk : n - zs.length using Nat.strongRecOn generalizing zs with
  | ind k ih =>
    by_cases hlong : ∀ zs', P zs' → zs'.length ≤ zs.length
    · exact ⟨zs, h, hlong⟩
    · push Not at hlong
      obtain ⟨zs', h', hlt⟩ := hlong
      have hle := hbound zs' h'
      exact ih (n - zs'.length) (by omega) h' rfl

theorem exists_isLongest_commonRun (xs ys : List α) : ∃ zs, IsLongest (CommonRun xs ys) zs :=
  have hnil : CommonRun xs ys [] := ⟨List.nil_infix, List.nil_infix⟩
  exists_isLongest (n := xs.length) hnil fun _ h => h.1.length_le

theorem exists_isLongest_commonSubsequence (xs ys : List α) :
    ∃ zs, IsLongest (CommonSubsequence xs ys) zs :=
  have hnil : CommonSubsequence xs ys [] := ⟨List.nil_sublist _, List.nil_sublist _⟩
  exists_isLongest (n := xs.length) hnil fun _ h => h.1.length_le

/-! ## Matched elements -/

theorem totalSize_append (ms ns : List Block) :
    totalSize (ms ++ ns) = totalSize ms + totalSize ns := by
  induction ms with
  | nil => simp [totalSize]
  | cons m ms ih => simpa [totalSize, Nat.add_assoc] using ih

/-- A stretch of both sequences is a block. -/
theorem CommonRun.exists_holds (h : CommonRun xs ys zs) :
    ∃ m : Block, m.size = zs.length ∧ (whole xs ys).Holds xs ys m := by
  obtain ⟨⟨p, q, rfl⟩, ⟨p', q', rfl⟩⟩ := h
  refine ⟨⟨p.length, p'.length, zs.length⟩, rfl, Nat.zero_le _, ?_, Nat.zero_le _, ?_, ?_⟩
  · simp [whole]
  · simp [whole]
  · intro k hk
    change k < zs.length at hk
    have hmiddle (p q : List α) : (p ++ zs ++ q)[p.length + k]? = some zs[k] := by
      rw [List.append_assoc, List.getElem?_append_right (Nat.le_add_right _ _),
        Nat.add_sub_cancel_left, List.getElem?_append_left hk, List.getElem?_eq_getElem hk]
    exact ⟨zs[k], hmiddle p q, hmiddle p' q'⟩

/-- A decomposition has at least as many elements as its longest run. -/
theorem Decomposes.size_le_totalSize {w : Window} {m : Block} (h : Decomposes xs ys w ms)
    (hm : w.Holds xs ys m) : m.size ≤ totalSize ms := by
  cases h with
  | none hlongest hsize =>
    have hle := hlongest.longest m hm
    omega
  | run hlongest _ _ _ =>
    have hle := hlongest.longest m hm
    rw [totalSize_append]
    simp only [totalSize, List.foldr_cons]
    omega

theorem Interleaves.sublist {own : List α} (h : Interleaves xs own zs) : xs.Sublist zs := by
  induction h with
  | nil => exact .slnil
  | left _ ih => exact ih.cons_cons _
  | right _ ih => exact ih.cons _

theorem length_leftPlaces (ms : List Block) : (leftPlaces ms).length = totalSize ms := by
  induction ms with
  | nil => rfl
  | cons m ms ih =>
    rw [leftPlaces] at ih ⊢
    rw [List.flatMap_cons, List.length_append, List.length_range', ih]
    rfl

variable [DecidableEq α]

/-- **No run of both sequences is longer than what is matched.** -/
theorem length_le_totalSize (h : CommonRun xs ys zs) : zs.length ≤ totalSize (blocks xs ys) := by
  obtain ⟨m, hsize, hm⟩ := h.exists_holds
  obtain ⟨ms, hms⟩ := exists_decomposes_whole xs ys
  rw [hms.blocks_eq, totalSize_collapse, ← hsize]
  exact hms.size_le_totalSize hm

/-- What is matched is what a division finds shared. -/
theorem length_shared (xs ys : List α) :
    (divide xs ys).shared.length = totalSize (blocks xs ys) := by
  have h := congrArg List.length (splits_left xs ys).shared
  rw [List.length_map, List.length_map, length_leftPlaces] at h
  exact h.symm

/-- What is shared stands in both sequences in order. -/
theorem commonSubsequence_shared (xs ys : List α) :
    CommonSubsequence xs ys (divide xs ys).shared :=
  ⟨(splits_left xs ys).interleaves.sublist, (splits_right xs ys).interleaves.sublist⟩

theorem totalSize_le_left (xs ys : List α) : totalSize (blocks xs ys) ≤ xs.length := by
  rw [← length_shared]
  exact (commonSubsequence_shared xs ys).1.length_le

theorem totalSize_le_right (xs ys : List α) : totalSize (blocks xs ys) ≤ ys.length := by
  rw [← length_shared]
  exact (commonSubsequence_shared xs ys).2.length_le

/-- Only equal sequences are matched in full. -/
theorem totalSize_eq_iff :
    2 * totalSize (blocks xs ys) = xs.length + ys.length ↔ xs = ys := by
  have hleft := totalSize_le_left xs ys
  have hright := totalSize_le_right xs ys
  constructor
  · intro h
    obtain ⟨hx, hy⟩ := commonSubsequence_shared xs ys
    have hlen := length_shared xs ys
    rw [← hx.eq_of_length (by omega)]
    exact hy.eq_of_length (by omega)
  · rintro rfl
    have hrun : xs.length ≤ totalSize (blocks xs xs) :=
      length_le_totalSize ⟨List.infix_rfl, List.infix_rfl⟩
    omega

/-- Only sequences without a common element have nothing matched. -/
theorem totalSize_eq_zero_iff : totalSize (blocks xs ys) = 0 ↔ ∀ x ∈ xs, x ∉ ys := by
  constructor
  · intro h x hx hy
    have hrun : [x].length ≤ totalSize (blocks xs ys) := by
      refine length_le_totalSize ⟨?_, ?_⟩
      · exact (List.singleton_infix_iff x xs).2 hx
      · exact (List.singleton_infix_iff x ys).2 hy
    rw [h] at hrun
    exact absurd hrun (by simp)
  · intro h
    rw [← length_shared, List.length_eq_zero_iff, List.eq_nil_iff_forall_not_mem]
    intro x hx
    obtain ⟨hl, hr⟩ := commonSubsequence_shared xs ys
    exact h x (hl.mem hx) (hr.mem hx)

end Align

open Align

/-! ## The share -/

/-- The number that a fraction is. -/
def Fraction.value (f : Fraction) : ℚ := f.num / f.den

theorem Fraction.value_eq_one_iff {f : Fraction} : f.value = 1 ↔ f.num = f.den := by
  have hden : (f.den : ℚ) ≠ 0 := Nat.cast_ne_zero.2 f.den_pos.ne'
  rw [Fraction.value, div_eq_one_iff_eq hden, Nat.cast_inj]

theorem Fraction.value_eq_zero_iff {f : Fraction} : f.value = 0 ↔ f.num = 0 := by
  have hden : (f.den : ℚ) ≠ 0 := Nat.cast_ne_zero.2 f.den_pos.ne'
  rw [Fraction.value, div_eq_zero_iff, or_iff_left hden, Nat.cast_eq_zero]

theorem Fraction.value_lt_one_iff {f : Fraction} : f.value < 1 ↔ f.num < f.den := by
  have hden : (0 : ℚ) < f.den := Nat.cast_pos.2 f.den_pos
  rw [Fraction.value, div_lt_one hden, Nat.cast_lt]

theorem Fraction.value_nonneg (f : Fraction) : 0 ≤ f.value :=
  div_nonneg (Nat.cast_nonneg _) (Nat.cast_nonneg _)

theorem Fraction.value_le_one_iff {f : Fraction} : f.value ≤ 1 ↔ f.num ≤ f.den := by
  have hden : (0 : ℚ) < f.den := Nat.cast_pos.2 f.den_pos
  rw [Fraction.value, div_le_one hden, Nat.cast_le]

/-- As a double, too, a fraction is one only if it is full, as far as a double can count. -/
theorem Fraction.toDouble_eq_one_iff {f : Fraction} (h : f.num ≤ f.den) (hden : f.den ≤ 2 ^ 53) :
    f.toDouble = .ofNat 1 ↔ f.num = f.den := by
  constructor
  · intro hone
    refine Nat.le_antisymm h (Nat.not_lt.1 fun hlt => ?_)
    have hbelow : f.toDouble.lt (.ofNat 1) = true := Binary64.ofRatio_lt_one hlt hden
    rw [hone, Binary64.lt_irrefl] at hbelow
    exact Bool.false_ne_true hbelow
  · intro heq
    rw [Fraction.toDouble, heq]
    exact Binary64.ofRatio_self f.den_pos

section Share

variable {α : Type} [DecidableEq α] {xs ys : List α}

theorem matchedShare_of_empty (h : xs.length + ys.length = 0) :
    matchedShare xs ys = ⟨1, 1, by decide⟩ := dif_pos h

theorem matchedShare_of_pos (h : 0 < xs.length + ys.length) :
    matchedShare xs ys = ⟨2 * totalSize (blocks xs ys), xs.length + ys.length, h⟩ :=
  dif_neg h.ne'

theorem value_matchedShare (xs ys : List α) : (matchedShare xs ys).value =
    if xs.length + ys.length = 0 then 1
    else 2 * (totalSize (blocks xs ys) : ℚ) / (xs.length + ys.length : ℕ) := by
  split
  · next h => simp [matchedShare_of_empty h, Fraction.value]
  · next h => simp [matchedShare_of_pos (Nat.pos_of_ne_zero h), Fraction.value]

/-- **Only equal sequences match fully.** -/
theorem value_matchedShare_eq_one_iff : (matchedShare xs ys).value = 1 ↔ xs = ys := by
  rw [Fraction.value_eq_one_iff]
  rcases Nat.eq_zero_or_pos (xs.length + ys.length) with h | h
  · rw [matchedShare_of_empty h, List.length_eq_zero_iff.1 (Nat.eq_zero_of_add_eq_zero_right h),
      List.length_eq_zero_iff.1 (Nat.eq_zero_of_add_eq_zero_left h)]
    simp
  · rw [matchedShare_of_pos h]
    exact totalSize_eq_iff

/-- **Only sequences without a common element do not match at all.** -/
theorem value_matchedShare_eq_zero_iff : (matchedShare xs ys).value = 0 ↔
    0 < xs.length + ys.length ∧ ∀ x ∈ xs, x ∉ ys := by
  rw [Fraction.value_eq_zero_iff]
  rcases Nat.eq_zero_or_pos (xs.length + ys.length) with h | h
  · rw [matchedShare_of_empty h]
    simp [h]
  · rw [matchedShare_of_pos h, ← totalSize_eq_zero_iff]
    simp only [h, true_and]
    omega

/-- The share of different sequences is below one. -/
theorem num_lt_den_matchedShare (h : xs ≠ ys) :
    (matchedShare xs ys).num < (matchedShare xs ys).den ∧
      (matchedShare xs ys).den = xs.length + ys.length := by
  have hpos : 0 < xs.length + ys.length := by
    rcases Nat.eq_zero_or_pos (xs.length + ys.length) with hzero | hpos
    · rw [List.length_eq_zero_iff.1 (Nat.eq_zero_of_add_eq_zero_right hzero),
        List.length_eq_zero_iff.1 (Nat.eq_zero_of_add_eq_zero_left hzero)] at h
      exact absurd rfl h
    · exact hpos
  have hleft := totalSize_le_left xs ys
  have hright := totalSize_le_right xs ys
  have hne := mt totalSize_eq_iff.1 h
  rw [matchedShare_of_pos hpos]
  exact ⟨by simp only; omega, rfl⟩

end Share

/-! ## Pairs of an analysis -/

variable {settings : AnalysisSettings} {docs : List Document}

theorem similarity_of_matchOf? {first second : Document} {m : Match}
    (h : matchOf? settings first second = some m) : m.similarity = likeness first second := by
  rw [eq_comparison_of_matchOf? h]
  rfl

/-- **The matched elements lie between the longest run and the longest subsequence of two sequences,
so the share is exact at both ends.** As an exact number it is one for equal sequences only, and
zero only for sequences that have an element and none in common. So a pair in an analysis of
documents that were made from their texts has a share below one, because its digests and with them
its texts differ; as the double that is recorded it is below one, too, unless a double cannot count
the characters. -/
theorem matchedShare_between :
    (∀ {α : Type} [DecidableEq α] (xs ys : List α),
      (∃ run common, IsLongest (CommonRun xs ys) run ∧
        IsLongest (CommonSubsequence xs ys) common ∧
        run.length ≤ totalSize (blocks xs ys) ∧ totalSize (blocks xs ys) ≤ common.length) ∧
      2 * totalSize (blocks xs ys) ≤ xs.length + ys.length ∧
      (matchedShare xs ys).value = (if xs.length + ys.length = 0 then 1
        else 2 * (totalSize (blocks xs ys) : ℚ) / (xs.length + ys.length : ℕ)) ∧
      ((matchedShare xs ys).value = 1 ↔ xs = ys) ∧
      ((matchedShare xs ys).value = 0 ↔ 0 < xs.length + ys.length ∧ ∀ x ∈ xs, x ∉ ys)) ∧
    ∀ (settings : AnalysisSettings) (docs : List Document),
      (∀ d ∈ docs, d = .make d.id d.path d.size d.content) →
      ∀ m ∈ (analyze settings docs).similar, ∃ i j : Fin docs.length, i < j ∧
        m.file1 = (docs.get i).id ∧ m.file2 = (docs.get j).id ∧
        (docs.get i).digest ≠ (docs.get j).digest ∧
        m.similarity = (similarity (docs.get i).content (docs.get j).content).toDouble ∧
        (similarity (docs.get i).content (docs.get j).content).value < 1 ∧
        ((docs.get i).content.length + (docs.get j).content.length ≤ 2 ^ 53 →
          m.similarity.lt (.ofNat 1) = true) := by
  refine ⟨fun {α} _ xs ys => ?_, fun settings docs hmade m hm => ?_⟩
  · obtain ⟨run, hrun⟩ := exists_isLongest_commonRun xs ys
    obtain ⟨common, hcommon⟩ := exists_isLongest_commonSubsequence xs ys
    refine ⟨⟨run, common, hrun, hcommon, length_le_totalSize hrun.1, ?_⟩, ?_,
      value_matchedShare xs ys, value_matchedShare_eq_one_iff, value_matchedShare_eq_zero_iff⟩
    · rw [← length_shared]
      exact hcommon.2 _ (commonSubsequence_shared xs ys)
    · have hleft := totalSize_le_left xs ys
      have hright := totalSize_le_right xs ys
      omega
  · obtain ⟨i, j, hij, hdigest, hmatch⟩ := exists_places_of_mem_similar hm
    obtain ⟨hfile1, hfile2⟩ := docs_of_matchOf? hmatch
    have hcontent : (docs.get i).content.toList ≠ (docs.get j).content.toList := by
      intro heq
      have htext : (docs.get i).content = (docs.get j).content := String.toList_injective heq
      rw [hmade _ (List.get_mem docs i), hmade _ (List.get_mem docs j)] at hdigest
      exact hdigest (congrArg Digest.of htext)
    obtain ⟨hlt, hden⟩ := num_lt_den_matchedShare hcontent
    have hsimilarity := similarity_of_matchOf? hmatch
    have hvalue := Fraction.value_lt_one_iff.2 hlt
    refine ⟨i, j, hij, hfile1, hfile2, hdigest, hsimilarity, hvalue, fun hlength => ?_⟩
    rw [hsimilarity]
    refine Binary64.ofRatio_lt_one hlt (hden.trans_le ?_)
    simpa only [String.length_toList] using hlength

/-- Two notes that differ in their last word. -/
def twoNotes : List Document :=
  [.make "a.md" "in/a.md" 10 "call Anna\n", .make "b.md" "in/b.md" 9 "call Bob\n"]

/-- They are reported as similar, with a similarity below one. -/
theorem matchedShare_between_twoNotes :
    ∃ m ∈ (analyze .default twoNotes).similar, m.file1 = "a.md" ∧
      m.similarity.lt (.ofNat 1) = true ∧
      ∃ first ∈ twoNotes, ∃ second ∈ twoNotes,
        m.similarity = (similarity first.content second.content).toDouble ∧
        (similarity first.content second.content).value < 1 := by
  have hmade : ∀ d ∈ twoNotes, d = .make d.id d.path d.size d.content := by decide +kernel
  have hshort : ∀ d ∈ twoNotes, d.content.length ≤ 10 := by decide +kernel
  have hsome : ∃ m ∈ (analyze .default twoNotes).similar, m.file1 = "a.md" := by decide +kernel
  obtain ⟨m, hm, hfile⟩ := hsome
  obtain ⟨i, j, -, -, -, -, heq, hvalue, hlt⟩ :=
    matchedShare_between.2 .default twoNotes hmade m hm
  have hi := List.get_mem twoNotes i
  have hj := List.get_mem twoNotes j
  refine ⟨m, hm, hfile, hlt ?_, _, hi, _, hj, heq, hvalue⟩
  exact (Nat.add_le_add (hshort _ hi) (hshort _ hj)).trans (by decide)

end NearDup
