import NearDup.Sort

/-!
# Stability

Elements that may precede each other keep the order that they had before the sort. So the sort is
the stable one: it gives what the merge sort of the library gives.

* `pairwise_sortBy_stable` — a sorted list is in order, and ties are as they were
* `sortBy_eq_mergeSort` — sorting by insertion gives what the stable merge sort gives
* `filter_sortBy` — some elements of a sorted list are what sorting them alone gives
* `filter_append_filter_not` — where some elements come first, the list is these and then the others
* `map_sortBy` — sorting values sorts the elements that they are values of
-/

namespace NearDup

variable {α β : Type} {le : α → α → Bool} {R : α → α → Prop} {x : α} {xs : List α}

/-! ## Stability -/

/-- `x` comes before `y` in a stable sort of a list in which `R` orders the elements. -/
def SortsBefore (le : α → α → Bool) (R : α → α → Prop) (x y : α) : Prop :=
  le x y = true ∧ (le y x = true → R x y)

theorem pairwise_insertBy_stable (trans : ∀ x y z, le x y → le y z → le x z)
    (total : ∀ x y, le x y ∨ le y x) (hx : ∀ y ∈ xs, R x y)
    (h : xs.Pairwise (SortsBefore le R)) : (insertBy le x xs).Pairwise (SortsBefore le R) := by
  induction xs with
  | nil => simp [insertBy]
  | cons y ys ih =>
    obtain ⟨hy, hys⟩ := List.pairwise_cons.1 h
    simp only [insertBy]
    split
    · next hxy =>
      refine List.pairwise_cons.2 ⟨fun z hz => ⟨?_, fun _ => hx z hz⟩, h⟩
      rcases List.mem_cons.1 hz with rfl | hz
      · exact hxy
      · exact trans _ _ _ hxy (hy z hz).1
    · next hxy =>
      have hrest := ih (fun z hz => hx z (List.mem_cons_of_mem _ hz)) hys
      refine List.pairwise_cons.2 ⟨fun z hz => ?_, hrest⟩
      rcases List.mem_cons.1 ((insertBy_perm le x ys).mem_iff.1 hz) with rfl | hz
      · exact ⟨(total z y).resolve_left hxy, fun hzy => absurd hzy hxy⟩
      · exact hy z hz

/-- Elements that may precede each other stay in the order they had. -/
theorem pairwise_sortBy_stable (trans : ∀ x y z, le x y → le y z → le x z)
    (total : ∀ x y, le x y ∨ le y x) (h : xs.Pairwise R) :
    (sortBy le xs).Pairwise (SortsBefore le R) := by
  induction xs with
  | nil => exact .nil
  | cons x xs ih =>
    obtain ⟨hx, hxs⟩ := List.pairwise_cons.1 h
    exact pairwise_insertBy_stable trans total
      (fun y hy => hx y ((sortBy_perm le xs).mem_iff.1 hy)) (ih hxs)

/-! ## Merge sort -/

theorem insertBy_append (front : ∀ y ∈ xs, le x y = false) (ys : List α)
    (hys : ∀ y ∈ ys, le x y = true) : insertBy le x (xs ++ ys) = xs ++ x :: ys := by
  induction xs with
  | nil =>
    cases ys with
    | nil => rfl
    | cons y ys => simp [insertBy, hys y List.mem_cons_self]
  | cons z zs ih =>
    rw [List.cons_append, insertBy, if_neg (by simp [front z List.mem_cons_self]),
      ih fun y hy => front y (List.mem_cons_of_mem _ hy)]
    rfl

/-- Sorting by insertion gives what the stable merge sort gives. -/
theorem sortBy_eq_mergeSort (trans : ∀ x y z, le x y → le y z → le x z)
    (total : ∀ x y, le x y ∨ le y x) (xs : List α) : sortBy le xs = xs.mergeSort le := by
  have total' : ∀ x y, (le x y || le y x) = true := by simpa using total
  induction xs with
  | nil => simp [sortBy]
  | cons x xs ih =>
    obtain ⟨before, behind, hsorted, hrest, hbefore⟩ := List.mergeSort_cons trans total' x xs
    have hpair := List.pairwise_mergeSort trans total' (x :: xs)
    rw [hsorted] at hpair ⊢
    have hbehind := (List.pairwise_cons.1 (List.pairwise_append.1 hpair).2.1).1
    calc sortBy le (x :: xs) = insertBy le x (before ++ behind) := by rw [← hrest, ← ih]; rfl
      _ = before ++ x :: behind :=
        insertBy_append (fun y hy => by simpa using hbefore y hy) behind hbehind

/-! ## Sorting a part -/

/-- An element that may precede all others goes to the front. -/
theorem insertBy_of_le (h : ∀ y ∈ xs, le x y = true) : insertBy le x xs = x :: xs := by
  have hnone : ∀ y ∈ ([] : List α), le x y = false := fun _ hy => absurd hy List.not_mem_nil
  exact insertBy_append hnone xs h

theorem filter_insertBy (trans : ∀ x y z, le x y → le y z → le x z) (p : α → Bool)
    (h : xs.Pairwise (le · ·)) : (insertBy le x xs).filter p =
      if p x then insertBy le x (xs.filter p) else xs.filter p := by
  induction xs with
  | nil => cases hp : p x <;> simp [insertBy, hp]
  | cons y ys ih =>
    obtain ⟨hy, hys⟩ := List.pairwise_cons.1 h
    rw [insertBy]
    split
    · next hxy =>
      -- in front of `y` the element is in front of whatever is kept of the others
      have hfront : ∀ z ∈ (y :: ys).filter p, le x z = true := by
        intro z hz
        rcases List.mem_cons.1 (List.mem_filter.1 hz).1 with rfl | hz
        · exact hxy
        · exact trans _ _ _ hxy (hy z hz)
      rw [insertBy_of_le hfront, List.filter_cons]
    · next hxy =>
      rw [List.filter_cons, ih hys, List.filter_cons (x := y)]
      cases p y with
      | true => simp [insertBy, hxy, apply_ite (y :: ·)]
      | false => rfl

/-- **Sorting and leaving out can be done in either order.** -/
theorem filter_sortBy (trans : ∀ x y z, le x y → le y z → le x z)
    (total : ∀ x y, le x y ∨ le y x) (p : α → Bool) (xs : List α) :
    (sortBy le xs).filter p = sortBy le (xs.filter p) := by
  induction xs with
  | nil => rfl
  | cons x xs ih =>
    have hsorted : (sortBy le xs).Pairwise (le · ·) := pairwise_sortBy trans total xs
    have hinsert := filter_insertBy trans (x := x) p hsorted
    rw [ih] at hinsert
    rw [List.filter_cons]
    split
    · next hp => rwa [if_pos hp] at hinsert
    · next hp => rwa [if_neg hp] at hinsert

/-- A list in which what meets a condition comes first is that, and then the rest. -/
theorem filter_append_filter_not {q : α → Bool}
    (h : xs.Pairwise fun x y => q y = true → q x = true) :
    xs.filter q ++ xs.filter (fun x => !q x) = xs := by
  induction xs with
  | nil => rfl
  | cons x xs ih =>
    obtain ⟨hx, hxs⟩ := List.pairwise_cons.1 h
    cases hq : q x with
    | true =>
      rw [List.filter_cons_of_pos hq, List.filter_cons_of_neg (by simp [hq]), List.cons_append,
        ih hxs]
    | false =>
      -- nothing behind the first one that misses the condition meets it
      have hnone : ∀ y ∈ xs, q y = false := by
        intro y hy
        rw [← Bool.not_eq_true]
        intro hqy
        rw [hx y hy hqy] at hq
        cases hq
      rw [List.filter_cons_of_neg (by simp [hq]), List.filter_cons_of_pos (by simp [hq]),
        List.filter_eq_nil_iff.2 (by simpa using hnone),
        List.filter_eq_self.2 (by simpa using hnone), List.nil_append]

/-! ## Sorting by values -/

theorem map_insertBy {le' : β → β → Bool} {f : α → Option β} {y : β} {ys : List β}
    (hle : ∀ x x' y y', f x = some y → f x' = some y' → le' y y' = le x x') (hx : f x = some y)
    (h : ys.map some = xs.map f) : (insertBy le' y ys).map some = (insertBy le x xs).map f := by
  induction xs generalizing ys with
  | nil =>
    rw [List.map_nil, List.map_eq_nil_iff] at h
    simp [h, insertBy, hx]
  | cons x' xs ih =>
    obtain ⟨y', ys, rfl, hx', hys⟩ := List.map_eq_cons_iff.1 h
    simp only [insertBy, hle x x' y y' hx hx'.symm]
    split
    · simp [hx, hx', hys]
    · rw [List.map_cons, List.map_cons, ih hys, hx']

/-- Sorting values sorts the elements that they are values of. -/
theorem map_sortBy {le' : β → β → Bool} {f : α → Option β}
    (hle : ∀ x x' y y', f x = some y → f x' = some y' → le' y y' = le x x')
    (h : ∀ x ∈ xs, ∃ y, f x = some y) :
    (sortBy le' (xs.filterMap f)).map some = (sortBy le xs).map f := by
  induction xs with
  | nil => rfl
  | cons x xs ih =>
    obtain ⟨y, hy⟩ := h x List.mem_cons_self
    rw [List.filterMap_cons_some hy]
    exact map_insertBy hle hy (ih fun x hx => h x (List.mem_cons_of_mem _ hx))

end NearDup
