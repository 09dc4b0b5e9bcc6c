import NearDup.Align.Blocks

/-!
# The longest run of a window

What the run table finds is the longest run of its window: of all stretches that both sequences
share inside the window none is longer, and of those as long none begins earlier in the left
sequence or, at the same place there, earlier in the right one. A window without a shared element
has the empty block at its corner.

The cursor of a row only saves time: the row is what a look-up of every place in the row before
gives (`extendRuns_eq`). So a row holds, for every place of the window's right range, the longest
run that ends there (`Window.Row.step`), and the rows together list runs in the order of their ends,
with one as long as any that the window holds. Keeping the first of the longest is a fold over that
list.

* `Window.Longest` — a block is the longest run of a window, the earliest of them
* `runsFrom` — all the runs of a table, in the order in which they are compared
* `Window.Row.induction` — induction over the rows of a window
* `longest_longestRun` — the table finds the longest run
* `Window.Longest.eq` — there is only one
-/

namespace NearDup.Align

variable {α : Type} {xs ys : List α} {w : Window} {m n : Block}

/-! ## Runs -/

/-- The last `n` elements before place `i` of the left sequence and before place `j` of the right
one are the same. -/
def RunEnds (xs ys : List α) (i j n : Nat) : Prop :=
  n ≤ i ∧ n ≤ j ∧ ∀ k < n, ∃ x, xs[i - n + k]? = some x ∧ ys[j - n + k]? = some x

/-- The two stretches of a block are equal. -/
def Block.Matches (xs ys : List α) (m : Block) : Prop :=
  ∀ k < m.size, ∃ x, xs[m.a + k]? = some x ∧ ys[m.b + k]? = some x

theorem RunEnds.zero (i j : Nat) : RunEnds xs ys i j 0 := by
  refine ⟨by omega, by omega, ?_⟩
  intro k hk
  omega

theorem RunEnds.succ {i j n : Nat} {x : α} (h : RunEnds xs ys i j n) (hx : xs[i]? = some x)
    (hy : ys[j]? = some x) : RunEnds xs ys (i + 1) (j + 1) (n + 1) := by
  obtain ⟨hi, hj, hk⟩ := h
  refine ⟨by omega, by omega, fun k hlt => ?_⟩
  rw [show i + 1 - (n + 1) + k = i - n + k by omega, show j + 1 - (n + 1) + k = j - n + k by omega]
  by_cases hn : k < n
  · exact hk k hn
  · refine ⟨x, ?_, ?_⟩
    · rwa [show i - n + k = i by omega]
    · rwa [show j - n + k = j by omega]

/-- A run less its last element. -/
theorem RunEnds.pred {i j n : Nat} (h : RunEnds xs ys (i + 1) (j + 1) (n + 1)) :
    RunEnds xs ys i j n := by
  obtain ⟨hi, hj, hk⟩ := h
  refine ⟨by omega, by omega, ?_⟩
  intro k hlt
  have hs := hk k (by omega)
  rwa [show i + 1 - (n + 1) + k = i - n + k by omega,
    show j + 1 - (n + 1) + k = j - n + k by omega] at hs

/-- The last element of a run. -/
theorem RunEnds.last {i j n : Nat} (h : RunEnds xs ys (i + 1) (j + 1) (n + 1)) :
    ∃ x, xs[i]? = some x ∧ ys[j]? = some x := by
  obtain ⟨hi, hj, hk⟩ := h
  have hs := hk n (by omega)
  rwa [show i + 1 - (n + 1) + n = i by omega, show j + 1 - (n + 1) + n = j by omega] at hs

theorem RunEnds.matches {i j n : Nat} (h : RunEnds xs ys i j n) :
    Block.Matches xs ys ⟨i - n, j - n, n⟩ := h.2.2

theorem Block.Matches.runEnds (h : m.Matches xs ys) :
    RunEnds xs ys (m.a + m.size) (m.b + m.size) m.size := by
  refine ⟨by omega, by omega, ?_⟩
  intro k hk
  rw [Nat.add_sub_cancel, Nat.add_sub_cancel]
  exact h k hk

/-! ## Windows -/

/-- A block lies in a window, and its stretches are equal. -/
structure Window.Holds (xs ys : List α) (w : Window) (m : Block) : Prop where
  left : w.aLo ≤ m.a
  leftEnd : m.a + m.size ≤ w.aHi
  right : w.bLo ≤ m.b
  rightEnd : m.b + m.size ≤ w.bHi
  same : m.Matches xs ys

/-- A block is the longest that a window holds; of several, the one that begins earliest in the left
sequence, then earliest in the right one. -/
structure Window.Longest (xs ys : List α) (w : Window) (m : Block) : Prop where
  held : w.Holds xs ys m
  longest : ∀ n, w.Holds xs ys n → n.size ≤ m.size
  first : ∀ n, w.Holds xs ys n → n.size = m.size → m.le n = true

theorem Block.le_iff : m.le n = true ↔ m.a < n.a ∨ m.a = n.a ∧ m.b ≤ n.b := by
  simp [Block.le]

/-- A window has one longest run. -/
theorem Window.Longest.eq (hm : w.Longest xs ys m) (hn : w.Longest xs ys n) : m = n := by
  have hsize : m.size = n.size :=
    Nat.le_antisymm (hn.longest m hm.held) (hm.longest n hn.held)
  have hmn := Block.le_iff.1 (hm.first n hn.held hsize.symm)
  have hnm := Block.le_iff.1 (hn.first m hm.held hsize)
  obtain ⟨a, b, size⟩ := m
  obtain ⟨a', b', size'⟩ := n
  simp only at hsize hmn hnm
  rw [Block.mk.injEq]
  omega

/-- The empty block at a window's corner. -/
def Window.corner (w : Window) : Block := ⟨w.aLo, w.bLo, 0⟩

theorem Window.holds_corner (ha : w.aLo ≤ w.aHi) (hb : w.bLo ≤ w.bHi) :
    w.Holds xs ys w.corner := by
  refine ⟨Nat.le_refl _, ha, Nat.le_refl _, hb, ?_⟩
  intro k hk
  exact absurd hk (Nat.not_lt_zero k)

/-- The corner begins before everything else in its window. -/
theorem Window.Holds.corner_le (h : w.Holds xs ys m) : w.corner.le m = true := by
  have hl := h.left
  have hr := h.right
  rw [Block.le_iff]
  simp only [Window.corner]
  omega

/-- The longest run of a window that ends right before `i` and `j` has length `n`. -/
structure Window.RunsTo (xs ys : List α) (w : Window) (i j n : Nat) : Prop where
  ends : RunEnds xs ys i j n
  left : w.aLo + n ≤ i
  right : w.bLo + n ≤ j
  longest : ∀ k, RunEnds xs ys i j k → w.aLo + k ≤ i → w.bLo + k ≤ j → k ≤ n

namespace Window.RunsTo

variable {i j k : Nat} {x : α}

theorem succ (h : w.RunsTo xs ys i j k) (hx : xs[i]? = some x) (hy : ys[j]? = some x) :
    w.RunsTo xs ys (i + 1) (j + 1) (k + 1) := by
  refine ⟨h.ends.succ hx hy, by have := h.left; omega, by have := h.right; omega, ?_⟩
  intro k' hk hl hr
  cases k' with
  | zero => omega
  | succ k' =>
    have := h.longest k' hk.pred (by omega) (by omega)
    omega

/-- No run ends between different elements. -/
theorem zero_of_ne (hi : w.aLo ≤ i + 1) (hj : w.bLo ≤ j + 1) (hx : xs[i]? = some x)
    (hy : ys[j]? ≠ some x) : w.RunsTo xs ys (i + 1) (j + 1) 0 := by
  refine ⟨.zero _ _, by omega, by omega, ?_⟩
  intro k' hk _ _
  cases k' with
  | zero => exact Nat.le_refl 0
  | succ k' =>
    obtain ⟨z, hz, hz'⟩ := hk.last
    rw [hx] at hz
    cases hz
    exact absurd hz' hy

/-- No run ends at an edge of its window. -/
theorem zero_of_edge (hi : w.aLo ≤ i) (hj : w.bLo ≤ j) (edge : i = w.aLo ∨ j = w.bLo) :
    w.RunsTo xs ys i j 0 := by
  refine ⟨.zero _ _, by omega, by omega, ?_⟩
  intro k' _ hl hr
  omega

end Window.RunsTo

/-! ## The cursor -/

/-- The length of the run of a row that ends right before `j`; 0 if there is none. -/
def runBefore (runs : List (Nat × Nat)) (j : Nat) : Nat :=
  ((runs.find? fun r => r.1 + 1 = j).map Prod.snd).getD 0

/-- The places of a row ascend. -/
def Ascends (runs : List (Nat × Nat)) : Prop := runs.Pairwise fun r s => r.1 < s.1

theorem runBefore_cons (r : Nat × Nat) (rest : List (Nat × Nat)) (j : Nat) :
    runBefore (r :: rest) j = if r.1 + 1 = j then r.2 else runBefore rest j := by
  unfold runBefore
  rw [List.find?_cons]
  by_cases h : r.1 + 1 = j
  · simp [h]
  · simp [h]

theorem runBefore_eq_zero {runs : List (Nat × Nat)} {j : Nat} (h : ∀ r ∈ runs, r.1 + 1 ≠ j) :
    runBefore runs j = 0 := by
  have hnone : runs.find? (fun r => r.1 + 1 = j) = none := by
    rw [List.find?_eq_none]
    intro r hr
    simpa using h r hr
  simp [runBefore, hnone]

theorem runBefore_of_mem {runs : List (Nat × Nat)} (asc : Ascends runs) {r : Nat × Nat}
    (hr : r ∈ runs) : runBefore runs (r.1 + 1) = r.2 := by
  induction runs with
  | nil => simp at hr
  | cons s rest ih =>
    obtain ⟨hs, hrest⟩ := List.pairwise_cons.1 asc
    rw [runBefore_cons]
    rcases List.mem_cons.1 hr with rfl | hr
    · simp
    · have := hs r hr
      rw [if_neg (by omega)]
      exact ih hrest hr

/-- Where a run ends right before `j`, the row lists it. -/
theorem mem_of_runBefore_pos {runs : List (Nat × Nat)} {j : Nat} (h : 0 < runBefore runs j) :
    ∃ r ∈ runs, r.1 + 1 = j ∧ r.2 = runBefore runs j := by
  unfold runBefore at h ⊢
  cases hf : runs.find? (fun r => r.1 + 1 = j) with
  | none => simp [hf] at h
  | some r =>
    have hr : r.1 + 1 = j := by simpa using List.find?_some hf
    exact ⟨r, List.mem_of_find?_eq_some hf, hr, by simp⟩

/-- Runs that end too early for `j` are no loss to a later place. -/
theorem runBefore_dropWhile (runs : List (Nat × Nat)) {j k : Nat} (h : j ≤ k) :
    runBefore (runs.dropWhile fun r => r.1 + 1 < j) k = runBefore runs k := by
  induction runs with
  | nil => rfl
  | cons r rest ih =>
    rw [List.dropWhile_cons]
    split
    · next hlt =>
      rw [decide_eq_true_eq] at hlt
      rw [ih, runBefore_cons, if_neg (by omega)]
    · rfl

/-- Under the cursor is the run that ends right before `j`, if there is one. -/
theorem runLength_dropWhile {runs : List (Nat × Nat)} (asc : Ascends runs) (j : Nat) :
    runLength j (runs.dropWhile fun r => r.1 + 1 < j) = runBefore runs j + 1 := by
  induction runs with
  | nil => rfl
  | cons r rest ih =>
    obtain ⟨hr, hrest⟩ := List.pairwise_cons.1 asc
    rw [List.dropWhile_cons, runBefore_cons]
    split
    · next hlt =>
      rw [decide_eq_true_eq] at hlt
      rw [ih hrest, if_neg (by omega)]
    · next hlt =>
      rw [decide_eq_true_eq] at hlt
      simp only [runLength]
      split
      · rfl
      · next hne =>
        have hnone : runBefore rest j = 0 := by
          apply runBefore_eq_zero
          intro s hs
          have := hr s hs
          omega
        rw [hnone]

/-- **The cursor only saves time.** A row is what looking up each place in the row before gives. -/
theorem extendRuns_eq (lo hi : Nat) {js : List Nat} {prev : List (Nat × Nat)}
    (hjs : js.Pairwise (· < ·)) (hprev : Ascends prev) :
    extendRuns lo hi js prev =
      (js.filter fun j => lo ≤ j ∧ j < hi).map fun j => (j, runBefore prev j + 1) := by
  induction js generalizing prev with
  | nil => rfl
  | cons j js ih =>
    obtain ⟨hj, hrest⟩ := List.pairwise_cons.1 hjs
    rw [extendRuns, List.filter_cons]
    split
    · next hlo =>
      rw [if_neg (by simp; omega)]
      exact ih hrest hprev
    · split
      · next hlo hhi =>
        rw [if_neg (by simp; omega)]
        have hnone : js.filter (fun j => decide (lo ≤ j ∧ j < hi)) = [] := by
          rw [List.filter_eq_nil_iff]
          intro k hk
          have := hj k hk
          simp
          omega
        rw [hnone, List.map_nil]
      · next hlo hhi =>
        rw [if_pos (by simp; omega), List.map_cons]
        simp only [runLength_dropWhile hprev,
          ih hrest (List.Pairwise.sublist (List.dropWhile_sublist _) hprev)]
        -- the cursor has passed only runs that no later place of the row extends
        congr 1
        apply List.map_congr_left
        intro k hk
        have hjk : j < k := hj k (List.mem_filter.1 hk).1
        rw [runBefore_dropWhile prev (by omega)]

/-! ## Places -/

section Places

variable [DecidableEq α]

theorem mem_placesFrom {x : α} {k j : Nat} :
    j ∈ placesFrom x k ys ↔ k ≤ j ∧ ys[j - k]? = some x := by
  induction ys generalizing k with
  | nil => simp [placesFrom]
  | cons y ys ih =>
    have later : j ∈ placesFrom x (k + 1) ys ↔ k + 1 ≤ j ∧ (y :: ys)[j - k]? = some x := by
      rw [ih]
      constructor
      · rintro ⟨hk, hx⟩
        refine ⟨hk, ?_⟩
        rwa [show j - k = j - (k + 1) + 1 by omega, List.getElem?_cons_succ]
      · rintro ⟨hk, hx⟩
        refine ⟨hk, ?_⟩
        rwa [show j - k = j - (k + 1) + 1 by omega, List.getElem?_cons_succ] at hx
    have here : (y :: ys)[k - k]? = some y := by simp
    rw [placesFrom]
    split
    · next hxy =>
      subst hxy
      rw [List.mem_cons, later]
      constructor
      · rintro (rfl | ⟨hk, hx⟩)
        · exact ⟨Nat.le_refl j, here⟩
        · exact ⟨by omega, hx⟩
      · rintro ⟨hk, hx⟩
        rcases Nat.lt_or_eq_of_le hk with hlt | rfl
        · exact Or.inr ⟨hlt, hx⟩
        · exact Or.inl rfl
    · next hxy =>
      rw [later]
      constructor
      · rintro ⟨hk, hx⟩
        exact ⟨by omega, hx⟩
      · rintro ⟨hk, hx⟩
        rcases Nat.lt_or_eq_of_le hk with hlt | rfl
        · exact ⟨hlt, hx⟩
        · rw [here] at hx
          exact absurd (Option.some.inj hx).symm hxy

theorem mem_places {x : α} {j : Nat} : j ∈ places x ys ↔ ys[j]? = some x := by
  rw [places, mem_placesFrom]
  simp

theorem pairwise_places (x : α) (ys : List α) : (places x ys).Pairwise (· < ·) := by
  suffices h : ∀ k, (placesFrom x k ys).Pairwise (· < ·) from h 0
  induction ys with
  | nil => exact fun k => .nil
  | cons y ys ih =>
    intro k
    rw [placesFrom]
    split
    · refine List.pairwise_cons.2 ⟨?_, ih (k + 1)⟩
      intro j hj
      exact (mem_placesFrom.1 hj).1
    · exact ih (k + 1)

end Places

/-! ## Rows of the table -/

/-- A row of the run table: for every place of the window's right range the longest run that ends
there and right before place `i` of the left sequence. -/
structure Window.Row (xs ys : List α) (w : Window) (i : Nat) (runs : List (Nat × Nat)) :
    Prop where
  ascends : Ascends runs
  inside : ∀ r ∈ runs, w.bLo ≤ r.1 ∧ r.1 < w.bHi
  longest : ∀ j, w.bLo ≤ j → j ≤ w.bHi → w.RunsTo xs ys i j (runBefore runs j)

/-- Nothing ends at the window's first place. -/
theorem Window.Row.start : w.Row xs ys w.aLo [] := by
  refine ⟨.nil, by simp, ?_⟩
  intro j hj _
  exact .zero_of_edge (Nat.le_refl _) hj (Or.inl rfl)

/-- An entry of a row is the longest run that ends at its place. -/
theorem Window.Row.runsTo {i : Nat} {runs : List (Nat × Nat)} (h : w.Row xs ys i runs)
    {r : Nat × Nat} (hr : r ∈ runs) : w.RunsTo xs ys i (r.1 + 1) r.2 := by
  have hin := h.inside r hr
  rw [← runBefore_of_mem h.ascends hr]
  exact h.longest (r.1 + 1) (by omega) (by omega)

/-- Extending a row by an element of the left sequence gives the next row. -/
theorem Window.Row.step [DecidableEq α] {i : Nat} {prev : List (Nat × Nat)} {x : α}
    (h : w.Row xs ys i prev) (hi : w.aLo ≤ i) (hx : xs[i]? = some x) :
    w.Row xs ys (i + 1) (extendRuns w.bLo w.bHi (places x ys) prev) := by
  rw [extendRuns_eq _ _ (pairwise_places x ys) h.ascends]
  have asc : Ascends (((places x ys).filter fun j => w.bLo ≤ j ∧ j < w.bHi).map
      fun j => (j, runBefore prev j + 1)) :=
    List.pairwise_map.2 ((pairwise_places x ys).filter _)
  have hmem : ∀ r ∈ ((places x ys).filter fun j => w.bLo ≤ j ∧ j < w.bHi).map
      (fun j => (j, runBefore prev j + 1)),
      (ys[r.1]? = some x ∧ w.bLo ≤ r.1 ∧ r.1 < w.bHi) ∧ r.2 = runBefore prev r.1 + 1 := by
    intro r hr
    obtain ⟨j, hj, rfl⟩ := List.mem_map.1 hr
    simpa [mem_places] using hj
  refine ⟨asc, fun r hr => (hmem r hr).1.2, ?_⟩
  intro j hlo hhi
  rcases Nat.lt_or_eq_of_le hlo with hlt | rfl
  · obtain ⟨k, rfl⟩ : ∃ k, j = k + 1 := ⟨j - 1, by omega⟩
    by_cases hy : ys[k]? = some x
    · -- the place is one of the row's, and what ended before it is one longer
      have hk : (k, runBefore prev k + 1) ∈
          ((places x ys).filter fun j => w.bLo ≤ j ∧ j < w.bHi).map
            fun j => (j, runBefore prev j + 1) := by
        refine List.mem_map_of_mem ?_
        simpa [mem_places, hy] using ⟨by omega, by omega⟩
      rw [runBefore_of_mem asc hk]
      exact (h.longest k (by omega) (by omega)).succ hx hy
    · rw [runBefore_eq_zero]
      · exact .zero_of_ne (by omega) (by omega) hx hy
      · intro r hr hrk
        have hr' := (hmem r hr).1.1
        rw [show r.1 = k by omega] at hr'
        exact hy hr'
  · rw [runBefore_eq_zero]
    · exact .zero_of_edge (by omega) (Nat.le_refl _) (Or.inr rfl)
    · intro r hr hrj
      have := (hmem r hr).1.2.1
      omega

/-! ## The runs of a table -/

/-- The block of a run that ends at place `i` of the left sequence. -/
def blockAt (i : Nat) (run : Nat × Nat) : Block := ⟨i + 1 - run.2, run.1 + 1 - run.2, run.2⟩

/-- The longer of two blocks; of equal ones the first. -/
def longer (m n : Block) : Block := if m.size < n.size then n else m

/-- The runs of a table from row `i` on, in the order in which they are compared. -/
def runsFrom (lo hi : Nat) : Nat → List (List Nat) → List (Nat × Nat) → List Block
  | _, [], _ => []
  | i, row :: rest, prev =>
    let next := extendRuns lo hi row prev
    next.map (blockAt i) ++ runsFrom lo hi (i + 1) rest next

theorem foldl_better (i : Nat) (runs : List (Nat × Nat)) (best : Block) :
    runs.foldl (better i) best = (runs.map (blockAt i)).foldl longer best := by
  rw [List.foldl_map]
  rfl

/-- The table keeps the longer of its runs. -/
theorem scanRows_eq (lo hi i : Nat) (table : List (List Nat)) (prev : List (Nat × Nat))
    (best : Block) :
    scanRows lo hi i table prev best = (runsFrom lo hi i table prev).foldl longer best := by
  induction table generalizing i prev best with
  | nil => rfl
  | cons row rest ih => rw [scanRows, runsFrom, List.foldl_append, ih, foldl_better]

/-- What is kept is the first of the longest: those before it are shorter, those after it not
longer. -/
theorem foldl_longer (best : Block) (ms : List Block) :
    ∃ before after, best :: ms = before ++ ms.foldl longer best :: after ∧
      (∀ n ∈ before, n.size < (ms.foldl longer best).size) ∧
      ∀ n ∈ after, n.size ≤ (ms.foldl longer best).size := by
  induction ms generalizing best with
  | nil => exact ⟨[], [], rfl, by simp, by simp⟩
  | cons n rest ih =>
    rw [List.foldl_cons]
    by_cases h : best.size < n.size
    · rw [longer, if_pos h]
      obtain ⟨before, after, hs, hb, ha⟩ := ih n
      have hn : n.size ≤ (rest.foldl longer n).size := by
        have hmem : n ∈ before ++ rest.foldl longer n :: after := hs ▸ List.mem_cons_self
        rcases List.mem_append.1 hmem with hm | hm
        · exact Nat.le_of_lt (hb n hm)
        · rcases List.mem_cons.1 hm with hm | hm
          · exact Nat.le_of_eq (congrArg Block.size hm)
          · exact ha n hm
      refine ⟨best :: before, after, by rw [hs]; rfl, ?_, ha⟩
      intro k hk
      rcases List.mem_cons.1 hk with rfl | hk
      · omega
      · exact hb k hk
    · rw [longer, if_neg h]
      obtain ⟨before, after, hs, hb, ha⟩ := ih best
      cases before with
      | nil =>
        obtain ⟨hbest, hrest⟩ := List.cons.inj hs
        refine ⟨[], n :: after, by rw [← hbest, ← hrest]; rfl, by simp, ?_⟩
        intro k hk
        rcases List.mem_cons.1 hk with rfl | hk
        · rw [← hbest]
          omega
        · exact ha k hk
      | cons k before =>
        obtain ⟨hk, hrest⟩ := List.cons.inj hs
        subst hk
        refine ⟨best :: n :: before, after, congrArg (best :: n :: ·) hrest, ?_, ha⟩
        intro k hk
        have hlt := hb best (by simp)
        rcases List.mem_cons.1 hk with rfl | hk
        · exact hlt
        · rcases List.mem_cons.1 hk with rfl | hk
          · omega
          · exact hb k (by simp [hk])

/-- In a list where blocks as long as each other stand in order, the one that is kept comes before
every other as long as itself. -/
theorem foldl_longer_first {best : Block} {ms : List Block}
    (ordered : (best :: ms).Pairwise fun m n => m.size = n.size → m.le n = true) :
    ms.foldl longer best ∈ best :: ms ∧ ∀ n ∈ best :: ms,
      n.size ≤ (ms.foldl longer best).size ∧
        (n.size = (ms.foldl longer best).size → (ms.foldl longer best).le n = true) := by
  obtain ⟨before, after, hsplit, hbefore, hafter⟩ := foldl_longer best ms
  generalize ms.foldl longer best = m at hsplit hbefore hafter ⊢
  rw [hsplit] at ordered ⊢
  refine ⟨by simp, ?_⟩
  intro n hn
  rcases List.mem_append.1 hn with hn | hn
  · have := hbefore n hn
    exact ⟨by omega, by omega⟩
  · rcases List.mem_cons.1 hn with rfl | hn
    · exact ⟨Nat.le_refl _, fun _ => by simp [Block.le_iff]⟩
    · have hlater := (List.pairwise_cons.1 (List.pairwise_append.1 ordered).2.1).1 n hn
      exact ⟨hafter n hn, fun hsize => hlater hsize.symm⟩

/-! ## The table finds the longest run -/

/-- A list of runs of a window that end behind place `i` of the left sequence: of runs as long as
each other the first begins first, and none that the window holds is longer or earlier than all of
them. -/
structure Window.Runs (xs ys : List α) (w : Window) (i : Nat) (runs : List Block) : Prop where
  held : ∀ m ∈ runs, w.Holds xs ys m
  later : ∀ m ∈ runs, i < m.a + m.size
  ordered : runs.Pairwise fun m n => m.size = n.size → m.le n = true
  complete : ∀ n, w.Holds xs ys n → 0 < n.size → i < n.a + n.size →
    ∃ m ∈ runs, n.size ≤ m.size ∧ (n.size = m.size → m.le n = true)

section Row

variable {i : Nat} {row : List (Nat × Nat)} {r : Nat × Nat}

theorem Window.Row.ends (hrow : w.Row xs ys (i + 1) row) (hr : r ∈ row) :
    (blockAt i r).a + (blockAt i r).size = i + 1 ∧
      (blockAt i r).b + (blockAt i r).size = r.1 + 1 := by
  have hl := (hrow.runsTo hr).left
  have hr' := (hrow.runsTo hr).right
  simp only [blockAt]
  omega

/-- The runs of a row are runs of the window. -/
theorem Window.Row.holds (hrow : w.Row xs ys (i + 1) row) (hi : i < w.aHi) (hr : r ∈ row) :
    w.Holds xs ys (blockAt i r) := by
  have hin := hrow.inside r hr
  have he := hrow.ends hr
  have hl := (hrow.runsTo hr).left
  have hr' := (hrow.runsTo hr).right
  refine ⟨?_, by omega, ?_, by omega, (hrow.runsTo hr).ends.matches⟩
  · simp only [blockAt]
    omega
  · simp only [blockAt]
    omega

/-- In a row the runs begin one after the other. -/
theorem Window.Row.pairwise_le (hrow : w.Row xs ys (i + 1) row) :
    (row.map (blockAt i)).Pairwise fun m n => m.size = n.size → m.le n = true := by
  refine List.pairwise_map.2 (hrow.ascends.imp ?_)
  intro r s hrs hsize
  rw [Block.le_iff]
  simp only [blockAt] at hsize ⊢
  omega

/-- A row has the longest run that ends at any place of it. -/
theorem Window.Row.exists_longest {n : Block} (hrow : w.Row xs ys (i + 1) row)
    (hn : w.Holds xs ys n) (hpos : 0 < n.size) (hend : n.a + n.size = i + 1) :
    ∃ r ∈ row, n.size ≤ (blockAt i r).size ∧
      (n.size = (blockAt i r).size → (blockAt i r).le n = true) := by
  have hruns := hn.same.runEnds
  rw [hend] at hruns
  have hl := hn.left
  have hr := hn.right
  have hsize : n.size ≤ runBefore row (n.b + n.size) :=
    (hrow.longest (n.b + n.size) (by omega) hn.rightEnd).longest _ hruns (by omega) (by omega)
  obtain ⟨r, hmem, hplace, hlen⟩ :=
    mem_of_runBefore_pos (show 0 < runBefore row (n.b + n.size) by omega)
  refine ⟨r, hmem, ?_, ?_⟩
  · simp only [blockAt]
    omega
  · intro heq
    have he := hrow.ends hmem
    rw [Block.le_iff]
    omega

end Row

/-- The runs of a row come before those of later rows. -/
theorem Window.Runs.cons {i : Nat} {row : List (Nat × Nat)} {runs : List Block}
    (hrow : w.Row xs ys (i + 1) row) (hi : i < w.aHi) (h : w.Runs xs ys (i + 1) runs) :
    w.Runs xs ys i (row.map (blockAt i) ++ runs) := by
  refine ⟨?_, ?_, ?_, ?_⟩
  · intro m hm
    rcases List.mem_append.1 hm with hm | hm
    · obtain ⟨r, hr, rfl⟩ := List.mem_map.1 hm
      exact hrow.holds hi hr
    · exact h.held m hm
  · intro m hm
    rcases List.mem_append.1 hm with hm | hm
    · obtain ⟨r, hr, rfl⟩ := List.mem_map.1 hm
      have := (hrow.ends hr).1
      omega
    · have := h.later m hm
      omega
  · refine List.pairwise_append.2 ⟨hrow.pairwise_le, h.ordered, ?_⟩
    intro m hm n hn hsize
    obtain ⟨r, hr, rfl⟩ := List.mem_map.1 hm
    have he := (hrow.ends hr).1
    have hl := h.later n hn
    rw [Block.le_iff]
    omega
  · intro n hn hpos hend
    by_cases hlater : i + 1 < n.a + n.size
    · obtain ⟨m, hm, hmn⟩ := h.complete n hn hpos hlater
      exact ⟨m, List.mem_append.2 (Or.inr hm), hmn⟩
    · obtain ⟨r, hr, hmn⟩ := hrow.exists_longest hn hpos (by omega)
      exact ⟨blockAt i r, List.mem_append.2 (Or.inl (List.mem_map_of_mem hr)), hmn⟩

/-- The longest of all runs of a window, or its corner if it has none. -/
theorem Window.Runs.longest {runs : List Block} (h : w.Runs xs ys w.aLo runs)
    (ha : w.aLo ≤ w.aHi) (hb : w.bLo ≤ w.bHi) :
    w.Longest xs ys (runs.foldl longer w.corner) := by
  have held : ∀ m ∈ w.corner :: runs, w.Holds xs ys m := by
    intro m hm
    rcases List.mem_cons.1 hm with rfl | hm
    · exact holds_corner ha hb
    · exact h.held m hm
  have complete : ∀ n, w.Holds xs ys n →
      ∃ m ∈ w.corner :: runs, n.size ≤ m.size ∧ (n.size = m.size → m.le n = true) := by
    intro n hn
    by_cases hpos : 0 < n.size
    · have hl := hn.left
      obtain ⟨m, hm, hmn⟩ := h.complete n hn hpos (by omega)
      exact ⟨m, List.mem_cons_of_mem _ hm, hmn⟩
    · exact ⟨w.corner, List.mem_cons_self, by omega, fun _ => hn.corner_le⟩
  obtain ⟨hbest, hfirst⟩ := foldl_longer_first
    (List.pairwise_cons.2 ⟨fun n hn _ => (h.held n hn).corner_le, h.ordered⟩)
  refine ⟨held _ hbest, ?_, ?_⟩
  · intro n hn
    obtain ⟨m, hm, hle, -⟩ := complete n hn
    exact Nat.le_trans hle (hfirst m hm).1
  · intro n hn hsize
    obtain ⟨m, hm, hle, heq⟩ := complete n hn
    obtain ⟨hmax, hbm⟩ := hfirst m hm
    -- nothing is longer, so the run found for `n` is as long, and it does not begin later
    have hmn := Block.le_iff.1 (heq (by omega))
    have hbm := Block.le_iff.1 (hbm (by omega))
    rw [Block.le_iff]
    omega

variable [DecidableEq α]

/-- The rows of a window from place `i` of the left sequence on. -/
def Window.rowsFrom (xs ys : List α) (w : Window) (i : Nat) : List (List Nat) :=
  ((xs.drop i).take (w.aHi - i)).map (places · ys)

/-- The rows of a window as the search takes them from the table. -/
theorem Window.take_drop_rows (xs ys : List α) (w : Window) :
    ((rows xs ys).drop w.aLo).take (w.aHi - w.aLo) = w.rowsFrom xs ys w.aLo := by
  rw [rows_eq, rowsFrom, List.map_take, List.map_drop]

theorem Window.rowsFrom_cons {i : Nat} {x : α} (hi : i < w.aHi) (hx : xs[i]? = some x) :
    w.rowsFrom xs ys i = places x ys :: w.rowsFrom xs ys (i + 1) := by
  obtain ⟨hlt, rfl⟩ := List.getElem?_eq_some_iff.1 hx
  rw [rowsFrom, List.drop_eq_getElem_cons hlt, show w.aHi - i = (w.aHi - (i + 1)) + 1 by omega]
  rfl

theorem Window.rowsFrom_nil {i : Nat} (h : w.aHi ≤ i ∨ xs.length ≤ i) :
    w.rowsFrom xs ys i = [] := by
  rw [rowsFrom, List.map_eq_nil_iff]
  rcases h with h | h
  · rw [show w.aHi - i = 0 by omega, List.take_zero]
  · rw [List.drop_eq_nil_of_le h, List.take_nil]

/-- Induction over the rows of a window, from any right row on: what holds where no row is left, and
of a row if it holds behind it, holds of all of them. -/
theorem Window.Row.induction {motive : Nat → List (Nat × Nat) → List (List Nat) → Prop}
    (done : ∀ i prev, w.aHi ≤ i ∨ xs.length ≤ i → motive i prev [])
    (next : ∀ i prev x, i < w.aHi →
      w.Row xs ys (i + 1) (extendRuns w.bLo w.bHi (places x ys) prev) →
      motive (i + 1) (extendRuns w.bLo w.bHi (places x ys) prev) (w.rowsFrom xs ys (i + 1)) →
      motive i prev (places x ys :: w.rowsFrom xs ys (i + 1)))
    {i : Nat} {prev : List (Nat × Nat)} (h : w.Row xs ys i prev) (hi : w.aLo ≤ i) :
    motive i prev (w.rowsFrom xs ys i) := by
  induction hk : w.aHi - i generalizing i prev with
  | zero =>
    have hend : w.aHi ≤ i ∨ xs.length ≤ i := Or.inl (by omega)
    rw [rowsFrom_nil hend]
    exact done i prev hend
  | succ k ih =>
    cases hx : xs[i]? with
    | none =>
      have hend : w.aHi ≤ i ∨ xs.length ≤ i := Or.inr (List.getElem?_eq_none_iff.1 hx)
      rw [rowsFrom_nil hend]
      exact done i prev hend
    | some x =>
      have hnext := h.step hi hx
      rw [rowsFrom_cons (by omega) hx]
      exact next i prev x (by omega) hnext (ih hnext (by omega) (by omega))

/-- The runs of a table are runs of its window, from any right row on. -/
theorem Window.Row.runs {i : Nat} {prev : List (Nat × Nat)} (h : w.Row xs ys i prev)
    (hi : w.aLo ≤ i) :
    w.Runs xs ys i (runsFrom w.bLo w.bHi i (w.rowsFrom xs ys i) prev) := by
  refine h.induction (motive := fun i prev table =>
    w.Runs xs ys i (runsFrom w.bLo w.bHi i table prev)) ?_ ?_ hi
  · intro i prev hend
    refine ⟨by simp [runsFrom], by simp [runsFrom], .nil, ?_⟩
    intro n hn hpos hlater
    -- a run ends inside the window, and has elements up to its end
    obtain ⟨x, hx, -⟩ := hn.same (n.size - 1) (by omega)
    have hlt := (List.getElem?_eq_some_iff.1 hx).1
    have hin := hn.leftEnd
    omega
  · intro i prev x hlt hnext ih
    exact .cons hnext hlt ih

/-- **The run table finds the longest run of a window**, the earliest of them. -/
theorem longest_longestRun (ha : w.aLo ≤ w.aHi) (hb : w.bLo ≤ w.bHi) :
    w.Longest xs ys (longestRun (rows xs ys) w) := by
  rw [longestRun, Window.take_drop_rows, scanRows_eq]
  exact (Window.Row.start.runs (Nat.le_refl _)).longest ha hb

end NearDup.Align
