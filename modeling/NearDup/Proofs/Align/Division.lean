import Mathlib.Data.List.Sort
import NearDup.Align.Partition
import NearDup.Proofs.Align.Decomposition

/-!
# A division is lossless

The places of the blocks ascend strictly on either side, for blocks do not overlap and stand in one
order in both sequences. So what is shared is the left sequence at its places in blocks and, blocks
being equal stretches, the right sequence at its places in blocks as well; what a side has alone is
that side at all other places. Every element is taken once, however often it is repeated.

* `Splits` — a sequence taken apart: some places, and all others
* `Interleaves` — a sequence is two others run together, each in its order
* `divide_lossless` — a division takes both sequences apart
* `mem_of_mem_divide` — nothing is made up in a division
-/

namespace NearDup.Align

variable {α : Type} {xs ys shared own : List α} {places : List Nat} {m : Block} {ms : List Block}
  {w : Window}

/-! ## A sequence taken apart -/

/-- The elements `zs` are those of a sequence at some places. -/
def Picks (xs : List α) (places : List Nat) (zs : List α) : Prop :=
  places.map (fun i => xs[i]?) = zs.map some

/-- The places of a sequence that are not among some, in order. -/
def otherPlaces (xs : List α) (places : List Nat) : List Nat :=
  (List.range xs.length).filter fun i => i ∉ places

/-- A sequence is taken apart: `shared` is the sequence at ascending places, `own` at all others. -/
structure Splits (xs : List α) (places : List Nat) (shared own : List α) : Prop where
  ascending : places.Pairwise (· < ·)
  inside : ∀ i ∈ places, i < xs.length
  shared : Picks xs places shared
  own : Picks xs (otherPlaces xs places) own

/-- A sequence is two others run together, each in its order. -/
inductive Interleaves : List α → List α → List α → Prop
  | nil : Interleaves [] [] []
  | left {x : α} {xs ys zs : List α} : Interleaves xs ys zs → Interleaves (x :: xs) ys (x :: zs)
  | right {x : α} {xs ys zs : List α} : Interleaves xs ys zs → Interleaves xs (x :: ys) (x :: zs)

/-- Running together loses nothing and repeats nothing. -/
theorem Interleaves.perm {xs ys zs : List α} (h : Interleaves xs ys zs) :
    (xs ++ ys).Perm zs := by
  induction h with
  | nil => exact .refl _
  | left _ ih => exact ih.cons _
  | right _ ih => exact List.perm_middle.trans (ih.cons _)

/-- There is one sequence of the elements at some places. -/
theorem Picks.eq {zs zs' : List α} (h : Picks xs places zs) (h' : Picks xs places zs') :
    zs = zs' := by
  unfold Picks at h h'
  rw [h] at h'
  exact List.map_inj_right (fun _ _ => Option.some.inj) |>.1 h'

/-- What is not covered are the elements at the places that are not. -/
theorem picks_uncovered (covered : Nat → Bool) (xs : List α) :
    Picks xs ((List.range xs.length).filter fun i => !covered i) (uncovered covered 0 xs) := by
  -- counted from `k` on, the element at place `i` is the one at `i - k`
  suffices h : ∀ k, ((List.range' k xs.length).filter fun i => !covered i).map
      (fun i => xs[i - k]?) = (uncovered covered k xs).map some by
    have h0 := h 0
    rwa [← List.range_eq_range'] at h0
  induction xs with
  | nil => exact fun k => rfl
  | cons x xs ih =>
    intro k
    have hrest : ((List.range' (k + 1) xs.length).filter fun i => !covered i).map
        (fun i => (x :: xs)[i - k]?) = (uncovered covered (k + 1) xs).map some := by
      rw [← ih (k + 1)]
      apply List.map_congr_left
      intro i hi
      obtain ⟨hi, -⟩ := List.mem_filter.1 hi
      rw [List.mem_range'_1] at hi
      rw [show i - k = i - (k + 1) + 1 by omega, List.getElem?_cons_succ]
    rw [List.length_cons, List.range'_succ, List.filter_cons, uncovered]
    cases hc : covered k with
    | true => simpa using hrest
    | false =>
      simp only [Bool.not_false, if_true, List.map_cons, Nat.sub_self, List.getElem?_cons_zero,
        Bool.false_eq_true, if_false]
      rw [hrest]

/-- What is covered and what is not run together to the whole. -/
theorem interleaves_uncovered (covered : Nat → Bool) (k : Nat) (xs : List α) :
    Interleaves (uncovered (fun i => !covered i) k xs) (uncovered covered k xs) xs := by
  induction xs generalizing k with
  | nil => exact .nil
  | cons x xs ih =>
    rw [uncovered, uncovered]
    cases covered k with
    | true => exact .left (ih (k + 1))
    | false => exact .right (ih (k + 1))

/-- Ascending places are the places of the sequence that are among them, in order. -/
theorem Splits.places_eq (h : Splits xs places shared own) :
    (List.range xs.length).filter (fun i => !decide (i ∉ places)) = places := by
  refine List.Pairwise.eq_of_mem_iff (List.pairwise_lt_range.filter _) h.ascending ?_
  intro i
  rw [List.mem_filter, List.mem_range]
  constructor
  · rintro ⟨-, hi⟩
    simpa using hi
  · intro hi
    exact ⟨h.inside i hi, by simpa using hi⟩

/-- **The parts of a sequence that is taken apart run together to the sequence.** -/
theorem Splits.interleaves (h : Splits xs places shared own) : Interleaves shared own xs := by
  have hshared := picks_uncovered (fun i => decide (i ∉ places)) xs
  rw [h.places_eq] at hshared
  have hown := picks_uncovered (fun i => !decide (i ∉ places)) xs
  simp only [Bool.not_not] at hown
  rw [h.shared.eq hshared, h.own.eq hown]
  have hrun := interleaves_uncovered (fun i => !decide (i ∉ places)) 0 xs
  simpa only [Bool.not_not] using hrun

/-! ## The places of blocks -/

/-- The places of the left sequence in blocks. -/
def leftPlaces (ms : List Block) : List Nat := ms.flatMap fun m => List.range' m.a m.size

/-- The places of the right sequence in blocks. -/
def rightPlaces (ms : List Block) : List Nat := ms.flatMap fun m => List.range' m.b m.size

theorem mem_leftPlaces {i : Nat} : i ∈ leftPlaces ms ↔ coversLeft ms i = true := by
  simp only [leftPlaces, coversLeft, List.mem_flatMap, List.mem_range'_1, List.any_eq_true,
    Bool.and_eq_true, decide_eq_true_eq]

theorem mem_rightPlaces {j : Nat} : j ∈ rightPlaces ms ↔ coversRight ms j = true := by
  simp only [rightPlaces, coversRight, List.mem_flatMap, List.mem_range'_1, List.any_eq_true,
    Bool.and_eq_true, decide_eq_true_eq]

/-- The places of stretches that stand in order ascend. -/
theorem pairwise_flatMap_range' {start : Block → Nat}
    (h : ms.Pairwise fun m n => start m + m.size ≤ start n) :
    (ms.flatMap fun m => List.range' (start m) m.size).Pairwise (· < ·) := by
  refine List.pairwise_flatMap.2 ⟨fun m _ => List.pairwise_lt_range' 1, h.imp ?_⟩
  intro m n hmn i hi j hj
  rw [List.mem_range'_1] at hi hj
  omega

/-- The stretch of a block, element by element, in the left sequence. -/
theorem Block.Matches.picks_left (h : m.Matches xs ys) :
    Picks xs (List.range' m.a m.size) (stretch xs m.a m.size) := by
  apply List.ext_getElem?
  intro k
  rw [List.getElem?_map, List.getElem?_map, stretch, List.getElem?_take]
  by_cases hk : k < m.size
  · obtain ⟨x, hx, -⟩ := h k hk
    rw [List.getElem?_range' hk, if_pos hk, List.getElem?_drop, hx]
    simp [hx]
  · rw [if_neg hk, List.getElem?_eq_none (by simpa using hk)]
    rfl

/-- The stretch of a block is one of the right sequence, too. -/
theorem Block.Matches.picks_right (h : m.Matches xs ys) :
    Picks ys (List.range' m.b m.size) (stretch xs m.a m.size) := by
  rw [Picks, ← h.picks_left]
  apply List.ext_getElem?
  intro k
  rw [List.getElem?_map, List.getElem?_map]
  by_cases hk : k < m.size
  · obtain ⟨x, hx, hy⟩ := h k hk
    simp [List.getElem?_range' hk, hx, hy]
  · rw [List.getElem?_eq_none (by simpa using hk), List.getElem?_eq_none (by simpa using hk)]
    rfl

theorem picks_flatMap {f : Block → List Nat} {g : Block → List α}
    (h : ∀ m ∈ ms, Picks xs (f m) (g m)) : Picks xs (ms.flatMap f) (ms.flatMap g) := by
  rw [Picks, List.map_flatMap, List.map_flatMap]
  exact List.flatMap_congr h

/-! ## Divisions -/

variable [DecidableEq α]

/-- The left sequence is taken apart at its places in blocks. -/
theorem splits_left (xs ys : List α) :
    Splits xs (leftPlaces (blocks xs ys)) (divide xs ys).shared (divide xs ys).left := by
  have h := aligned_blocks xs ys
  refine ⟨pairwise_flatMap_range' (h.ordered.imp And.left), ?_, ?_, ?_⟩
  · intro i hi
    obtain ⟨m, hm, hi⟩ := List.mem_flatMap.1 hi
    rw [List.mem_range'_1] at hi
    have hend : m.a + m.size ≤ xs.length := (h.holds m hm).2.leftEnd
    omega
  · exact picks_flatMap fun m hm => (h.holds m hm).2.same.picks_left
  · have hother : otherPlaces xs (leftPlaces (blocks xs ys)) =
        (List.range xs.length).filter fun i => !coversLeft (blocks xs ys) i := by
      simp [otherPlaces, mem_leftPlaces]
    rw [hother]
    exact picks_uncovered _ xs

/-- The right sequence is taken apart at its places in blocks, with the same shared elements. -/
theorem splits_right (xs ys : List α) :
    Splits ys (rightPlaces (blocks xs ys)) (divide xs ys).shared (divide xs ys).right := by
  have h := aligned_blocks xs ys
  refine ⟨pairwise_flatMap_range' (h.ordered.imp And.right), ?_, ?_, ?_⟩
  · intro j hj
    obtain ⟨m, hm, hj⟩ := List.mem_flatMap.1 hj
    rw [List.mem_range'_1] at hj
    have hend : m.b + m.size ≤ ys.length := (h.holds m hm).2.rightEnd
    omega
  · exact picks_flatMap fun m hm => (h.holds m hm).2.same.picks_right
  · have hother : otherPlaces ys (rightPlaces (blocks xs ys)) =
        (List.range ys.length).filter fun j => !coversRight (blocks xs ys) j := by
      simp [otherPlaces, mem_rightPlaces]
    rw [hother]
    exact picks_uncovered _ ys

theorem perm_left (xs ys : List α) :
    ((divide xs ys).shared ++ (divide xs ys).left).Perm xs :=
  (splits_left xs ys).interleaves.perm

theorem perm_right (xs ys : List α) :
    ((divide xs ys).shared ++ (divide xs ys).right).Perm ys :=
  (splits_right xs ys).interleaves.perm

/-- **A division is lossless on both sides.** At some ascending places of the left sequence and as
many of the right one stands what is shared; at all others stands, in order, what either has alone.
So either sequence is the shared elements and its own run together, and each element occurs as often
in them as in the sequence. -/
theorem divide_lossless (xs ys : List α) :
    ∃ I J : List Nat, I.length = J.length ∧
      Splits xs I (divide xs ys).shared (divide xs ys).left ∧
      Splits ys J (divide xs ys).shared (divide xs ys).right ∧
      Interleaves (divide xs ys).shared (divide xs ys).left xs ∧
      Interleaves (divide xs ys).shared (divide xs ys).right ys ∧
      (divide xs ys).left.length + (divide xs ys).shared.length = xs.length ∧
      (divide xs ys).right.length + (divide xs ys).shared.length = ys.length ∧
      (∀ x, (divide xs ys).left.count x + (divide xs ys).shared.count x = xs.count x) ∧
      ∀ y, (divide xs ys).right.count y + (divide xs ys).shared.count y = ys.count y := by
  have hl := splits_left xs ys
  have hr := splits_right xs ys
  refine ⟨_, _, ?_, hl, hr, hl.interleaves, hr.interleaves, ?_, ?_, ?_, ?_⟩
  · -- both are as many as the shared elements
    have h₁ := congrArg List.length hl.shared
    have h₂ := congrArg List.length hr.shared
    simp only [List.length_map] at h₁ h₂
    rw [h₁, h₂]
  · have h := (perm_left xs ys).length_eq
    rw [List.length_append] at h
    omega
  · have h := (perm_right xs ys).length_eq
    rw [List.length_append] at h
    omega
  · intro x
    have h := (perm_left xs ys).count_eq x
    rw [List.count_append] at h
    omega
  · intro y
    have h := (perm_right xs ys).count_eq y
    rw [List.count_append] at h
    omega

/-! ## What is in a division -/

variable {x : α}

/-- A division makes up no element. -/
theorem mem_of_mem_divide (h : x ∈ (divide xs ys).left ∨ x ∈ (divide xs ys).shared ∨
    x ∈ (divide xs ys).right) : x ∈ xs ∨ x ∈ ys := by
  rw [← (perm_left xs ys).mem_iff, ← (perm_right xs ys).mem_iff]
  simp only [List.mem_append]
  rcases h with h | h | h
  · exact Or.inl (Or.inr h)
  · exact Or.inl (Or.inl h)
  · exact Or.inr (Or.inr h)

end NearDup.Align
