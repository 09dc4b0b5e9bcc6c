import Mathlib.Data.Finset.Card
import NearDup.Document
import NearDup.Proofs.Similarity
import NearDup.Proofs.Text.Layout

/-!
# What the overlap of two texts means

The overlap counts digests. Where the digests of two texts' lines do not collide it counts lines:
those that both texts have, each once and trimmed, without the blank ones, against those that the
one with more of them has. So it depends on nothing but the sets of these lines, and the layout of a
text has no part in it.

* `num_overlap`, `den_overlap`, `num_eq_den_overlap_iff` — the overlap of two lists of anything
* `overlapOfTexts`, `sharedOfTexts` — the overlap of two texts
* `overlap_lineSets` — it is that of their sets of lines
-/

namespace NearDup

/-! ## Lists -/

section Lists

variable {α : Type} [DecidableEq α] {xs ys xs' ys' : List α}

theorem length_distinct (xs : List α) : (distinct xs).length = xs.toFinset.card := by
  have hsame : (distinct xs).toFinset = xs.toFinset := by
    ext x
    rw [List.mem_toFinset, List.mem_toFinset, mem_distinct]
  rw [← List.toFinset_card_of_nodup (nodup_distinct xs), hsame]

theorem sharedCount_eq_card (xs ys : List α) :
    sharedCount xs ys = (xs.toFinset ∩ ys.toFinset).card := by
  have hsame : ((distinct xs).filter fun x => x ∈ ys).toFinset = xs.toFinset ∩ ys.toFinset := by
    ext x
    simp [mem_distinct]
  rw [sharedCount, ← List.toFinset_card_of_nodup ((nodup_distinct xs).filter _), hsame]

theorem sharedCount_comm (xs ys : List α) : sharedCount xs ys = sharedCount ys xs := by
  rw [sharedCount_eq_card, sharedCount_eq_card, Finset.inter_comm]

theorem sharedCount_le_left (xs ys : List α) : sharedCount xs ys ≤ xs.toFinset.card := by
  rw [sharedCount_eq_card]
  exact Finset.card_le_card Finset.inter_subset_left

theorem sharedCount_le_right (xs ys : List α) : sharedCount xs ys ≤ ys.toFinset.card := by
  rw [sharedCount_comm]
  exact sharedCount_le_left ys xs

theorem overlap_of_empty (h : max (distinct xs).length (distinct ys).length = 0) :
    overlap xs ys = ⟨0, 1, by decide⟩ := dif_pos h

theorem overlap_of_pos (h : 0 < max (distinct xs).length (distinct ys).length) :
    overlap xs ys = ⟨sharedCount xs ys, max (distinct xs).length (distinct ys).length, h⟩ :=
  dif_neg h.ne'

theorem num_overlap (xs ys : List α) : (overlap xs ys).num = sharedCount xs ys := by
  rcases Nat.eq_zero_or_pos (max (distinct xs).length (distinct ys).length) with h | h
  · have hle := sharedCount_le_left xs ys
    rw [← length_distinct] at hle
    rw [overlap_of_empty h]
    simp only
    omega
  · rw [overlap_of_pos h]

/-- Two empty lists count as one element, none of it shared. -/
theorem den_overlap (xs ys : List α) :
    (overlap xs ys).den = max 1 (max xs.toFinset.card ys.toFinset.card) := by
  rw [← length_distinct, ← length_distinct]
  rcases Nat.eq_zero_or_pos (max (distinct xs).length (distinct ys).length) with h | h
  · rw [overlap_of_empty h, h]
    rfl
  · rw [overlap_of_pos h]
    exact (max_eq_right h).symm

theorem Fraction.eq_of_num_den {f g : Fraction} (hnum : f.num = g.num) (hden : f.den = g.den) :
    f = g := by
  cases f
  cases g
  simpa using ⟨hnum, hden⟩

theorem overlap_comm (xs ys : List α) : overlap xs ys = overlap ys xs := by
  refine Fraction.eq_of_num_den ?_ ?_
  · rw [num_overlap, num_overlap, sharedCount_comm]
  · rw [den_overlap, den_overlap, max_comm xs.toFinset.card]

/-- Order and repetition have no part in the overlap. -/
theorem overlap_congr (hx : xs.toFinset = xs'.toFinset) (hy : ys.toFinset = ys'.toFinset) :
    overlap xs ys = overlap xs' ys' := by
  refine Fraction.eq_of_num_den ?_ ?_
  · rw [num_overlap, num_overlap, sharedCount_eq_card, sharedCount_eq_card, hx, hy]
  · rw [den_overlap, den_overlap, hx, hy]

theorem num_le_den_overlap (xs ys : List α) : (overlap xs ys).num ≤ (overlap xs ys).den := by
  have hle := sharedCount_le_left xs ys
  rw [num_overlap, den_overlap]
  omega

/-- The overlap is full if both have the same elements, and some. -/
theorem num_eq_den_overlap_iff : (overlap xs ys).num = (overlap xs ys).den ↔
    xs.toFinset = ys.toFinset ∧ xs.toFinset.Nonempty := by
  have hl := sharedCount_le_left xs ys
  have hr := sharedCount_le_right xs ys
  rw [num_overlap, den_overlap]
  constructor
  · intro h
    rw [sharedCount_eq_card] at h hl hr
    have hleft : xs.toFinset ∩ ys.toFinset = xs.toFinset :=
      Finset.eq_of_subset_of_card_le Finset.inter_subset_left (by omega)
    have hright : xs.toFinset ∩ ys.toFinset = ys.toFinset :=
      Finset.eq_of_subset_of_card_le Finset.inter_subset_right (by omega)
    exact ⟨hleft.symm.trans hright, Finset.card_pos.1 (by omega)⟩
  · rintro ⟨heq, hne⟩
    have hpos := Finset.card_pos.2 hne
    rw [sharedCount_eq_card, ← heq, Finset.inter_self]
    omega

end Lists

/-! ## Texts -/

open Text

variable {a a' b b' : String}

/-- The overlap of two texts. -/
def overlapOfTexts (a b : String) : Fraction :=
  overlap (lineDigests (lines a)) (lineDigests (lines b))

/-- The number of distinct lines that two texts share. -/
def sharedOfTexts (a b : String) : Nat :=
  sharedCount (lineDigests (lines a)) (lineDigests (lines b))

/-- The digests of a text's lines are those of its set of lines. -/
theorem toFinset_lineDigests (text : String) :
    (lineDigests (lines text)).toFinset = (lineSet text).image Digest.of := by
  ext digest
  simp only [lineDigests, lineSet, trimmedLines, List.mem_toFinset, List.mem_map, Finset.mem_image]

/-- No two lines of two texts have one digest. -/
def LinesApart (a b : String) : Prop :=
  ∀ x ∈ lineSet a ∪ lineSet b, ∀ y ∈ lineSet a ∪ lineSet b, Digest.of x = .of y → x = y

instance (a b : String) : Decidable (LinesApart a b) :=
  inferInstanceAs (Decidable (∀ x ∈ lineSet a ∪ lineSet b, ∀ y ∈ lineSet a ∪ lineSet b,
    Digest.of x = .of y → x = y))

theorem LinesApart.injOn (h : LinesApart a b) :
    Set.InjOn Digest.of (lineSet a ∪ lineSet b : Finset String) :=
  fun _ hx _ hy hxy => h _ hx _ hy hxy

theorem LinesApart.card_left (h : LinesApart a b) :
    (lineDigests (lines a)).toFinset.card = (lineSet a).card := by
  rw [toFinset_lineDigests]
  exact Finset.card_image_of_injOn (h.injOn.mono (Finset.coe_subset.2 Finset.subset_union_left))

theorem LinesApart.card_right (h : LinesApart a b) :
    (lineDigests (lines b)).toFinset.card = (lineSet b).card := by
  rw [toFinset_lineDigests]
  exact Finset.card_image_of_injOn (h.injOn.mono (Finset.coe_subset.2 Finset.subset_union_right))

/-- The shared digests are as many as the shared lines. -/
theorem sharedOfTexts_eq (h : LinesApart a b) :
    sharedOfTexts a b = (lineSet a ∩ lineSet b).card := by
  have hinj := h.injOn
  rw [Finset.coe_union] at hinj
  rw [sharedOfTexts, sharedCount_eq_card, toFinset_lineDigests, toFinset_lineDigests,
    ← Finset.image_inter_of_injOn _ _ hinj]
  refine Finset.card_image_of_injOn (h.injOn.mono (Finset.coe_subset.2 ?_))
  exact Finset.inter_subset_left.trans Finset.subset_union_left

theorem num_overlapOfTexts (h : LinesApart a b) :
    (overlapOfTexts a b).num = (lineSet a ∩ lineSet b).card := by
  rw [overlapOfTexts, num_overlap]
  exact sharedOfTexts_eq h

theorem den_overlapOfTexts (h : LinesApart a b) :
    (overlapOfTexts a b).den = max 1 (max (lineSet a).card (lineSet b).card) := by
  rw [overlapOfTexts, den_overlap, h.card_left, h.card_right]

theorem num_eq_den_overlapOfTexts_iff (h : LinesApart a b) :
    (overlapOfTexts a b).num = (overlapOfTexts a b).den ↔
      lineSet a = lineSet b ∧ (lineSet a).Nonempty := by
  rw [overlapOfTexts, num_eq_den_overlap_iff, toFinset_lineDigests, toFinset_lineDigests,
    Finset.image_nonempty, Finset.image_eq_image_iff_of_injOn h.injOn Finset.subset_union_left
      Finset.subset_union_right]

theorem value_overlapOfTexts (h : LinesApart a b) : (overlapOfTexts a b).value =
    if lineSet a = ∅ ∧ lineSet b = ∅ then 0
    else ((lineSet a ∩ lineSet b).card : ℚ) / (max (lineSet a).card (lineSet b).card : ℕ) := by
  rw [Fraction.value, num_overlapOfTexts h, den_overlapOfTexts h]
  split
  · next hempty => simp [hempty.1]
  · next hsome =>
    rw [← Finset.card_eq_zero, ← Finset.card_eq_zero] at hsome
    rw [max_eq_right (by omega : 1 ≤ max (lineSet a).card (lineSet b).card)]

/-- Only the set of lines of a text counts. -/
theorem overlapOfTexts_congr (ha : lineSet a = lineSet a') (hb : lineSet b = lineSet b') :
    sharedOfTexts a b = sharedOfTexts a' b' ∧ overlapOfTexts a b = overlapOfTexts a' b' := by
  have hda : (lineDigests (lines a)).toFinset = (lineDigests (lines a')).toFinset := by
    rw [toFinset_lineDigests, toFinset_lineDigests, ha]
  have hdb : (lineDigests (lines b)).toFinset = (lineDigests (lines b')).toFinset := by
    rw [toFinset_lineDigests, toFinset_lineDigests, hb]
  refine ⟨?_, overlap_congr hda hdb⟩
  rw [sharedOfTexts, sharedOfTexts, sharedCount_eq_card, sharedCount_eq_card, hda, hdb]

/-- **The overlap of two texts depends only on their sets of lines**, which are trimmed and not
blank. If no two of these lines have one digest, the lines that both texts have are counted, against
those of the text that has more of them; nothing is shared by two texts without such lines. The
overlap is one exactly if both sets are the same and not empty; as a double it is so, too, unless a
double cannot count the lines. It is the same for the texts in the other order, and for texts that
are laid out anew: with their lines in another order or repeated, blank lines added or left out,
other blank characters at the ends of lines, other line ends. -/
theorem overlap_lineSets :
    (∀ a b : String, LinesApart a b →
      sharedOfTexts a b = (lineSet a ∩ lineSet b).card ∧
      (overlapOfTexts a b).value = (if lineSet a = ∅ ∧ lineSet b = ∅ then 0
        else ((lineSet a ∩ lineSet b).card : ℚ) / (max (lineSet a).card (lineSet b).card : ℕ)) ∧
      ((overlapOfTexts a b).value = 1 ↔ lineSet a = lineSet b ∧ (lineSet a).Nonempty) ∧
      (max (lineSet a).card (lineSet b).card ≤ 2 ^ 53 →
        ((overlapOfTexts a b).toDouble = .ofNat 1 ↔
          lineSet a = lineSet b ∧ (lineSet a).Nonempty))) ∧
    (∀ a b : String, sharedOfTexts a b = sharedOfTexts b a ∧
      overlapOfTexts a b = overlapOfTexts b a) ∧
    (∀ a a' b b' : String, lineSet a = lineSet a' → lineSet b = lineSet b' →
      sharedOfTexts a b = sharedOfTexts a' b' ∧ overlapOfTexts a b = overlapOfTexts a' b') ∧
    ∀ a a' b b' : String, Relaid a a' → Relaid b b' →
      sharedOfTexts a b = sharedOfTexts a' b' ∧ overlapOfTexts a b = overlapOfTexts a' b' := by
  refine ⟨fun a b h => ?_, fun a b => ?_, fun a a' b b' => overlapOfTexts_congr,
    fun a a' b b' ha hb => overlapOfTexts_congr ha.lineSet_eq hb.lineSet_eq⟩
  · have hone := num_eq_den_overlapOfTexts_iff h
    refine ⟨sharedOfTexts_eq h, value_overlapOfTexts h, ?_, fun hcount => ?_⟩
    · rw [Fraction.value_eq_one_iff, hone]
    · have hden : (overlapOfTexts a b).den ≤ 2 ^ 53 := by
        rw [den_overlapOfTexts h]
        omega
      have hle : (overlapOfTexts a b).num ≤ (overlapOfTexts a b).den := num_le_den_overlap _ _
      rw [Fraction.toDouble_eq_one_iff hle hden, hone]
  · exact ⟨sharedCount_comm _ _, overlap_comm _ _⟩

/-- A list of two things, and the same list in another order, with one of them twice, a blank line,
an indented one and another line end. -/
theorem relaid_list : Relaid "milk\nbread" "milk\n\tbread\r\n\nmilk" := by
  have htab : IsBlankText "\t" := by decide +kernel
  have hmilk : "milk" ∈ ["\tbread", "", "milk"] := by decide
  have hpermuted : LayoutEdit "milk\nbread" "bread\nmilk" :=
    .permuted (.swap "bread" "milk" [])
  have hpadded : LayoutEdit "bread\nmilk" "\tbread\nmilk" :=
    .padded htab isBlankText_empty [] "bread" ["milk"]
  have hblank : LayoutEdit "\tbread\nmilk" "\tbread\n\nmilk" :=
    .blankAdded isBlankText_empty ["\tbread"] ["milk"]
  have hrepeated : LayoutEdit "\tbread\n\nmilk" "milk\n\tbread\n\nmilk" :=
    .repeated hmilk
  have hreturned : LayoutEdit "milk\n\tbread\n\nmilk" "milk\n\tbread\r\n\nmilk" :=
    .returned "milk\n\tbread".toList "\nmilk".toList
  exact .trans _ _ _ (.rel _ _ hpermuted) <| .trans _ _ _ (.rel _ _ hpadded) <|
    .trans _ _ _ (.rel _ _ hblank) <| .trans _ _ _ (.rel _ _ hrepeated) (.rel _ _ hreturned)

/-- Either list shares one of two lines with another, and all lines with the other. -/
theorem overlap_lineSets_list :
    LinesApart "milk\nbread" "milk\neggs" ∧ Relaid "milk\nbread" "milk\n\tbread\r\n\nmilk" ∧
    sharedOfTexts "milk\n\tbread\r\n\nmilk" "milk\neggs" = 1 ∧
    (overlapOfTexts "milk\n\tbread\r\n\nmilk" "milk\neggs").value = 1 / 2 := by
  have hapart : LinesApart "milk\nbread" "milk\neggs" := by decide +kernel
  obtain ⟨hshared, hvalue, -⟩ := overlap_lineSets.1 _ _ hapart
  obtain ⟨hsame, hsame'⟩ := overlap_lineSets.2.2.2 _ _ _ _ relaid_list (.refl "milk\neggs")
  have hcard : (lineSet "milk\nbread" ∩ lineSet "milk\neggs").card = 1 := by decide +kernel
  have hmost : max (lineSet "milk\nbread").card (lineSet "milk\neggs").card = 2 := by decide +kernel
  have hsome : ¬(lineSet "milk\nbread" = ∅ ∧ lineSet "milk\neggs" = ∅) := by decide +kernel
  refine ⟨hapart, relaid_list, ?_, ?_⟩
  · rw [← hsame, hshared, hcard]
  · rw [← hsame', hvalue, if_neg hsome, hcard, hmost]
    norm_num

end NearDup
