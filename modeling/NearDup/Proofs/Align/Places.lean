import Mathlib.Data.Nat.PSub
import NearDup.Proofs.Align.Alignment

/-!
# The places of the longest run

The run table knows a run by its end, so the place where it begins is a difference. A run has no
more elements than there are up to its end, so no difference that the table takes falls below zero:
the search with checked differences always has a result, which is that of the search without
checks. What it finds is read off the two sequences: no two equal stretches inside the window are
longer, and of those as long none begins earlier.

* `longestRun?` — the search of the run table, given up when a difference falls below zero
* `longestRun?_eq` — it is never given up
* `Window.Shares` — two stretches inside a window are equal
* `longestRun_first_longest` — what the run table finds is the first of the longest runs
-/

namespace NearDup.Align

/-! ## Checked differences -/

/-- The better of two runs; no result if the longer one has more elements than there are up to its
end, on either side. -/
def better? (i : Nat) (best : Block) (run : Nat × Nat) : Option Block :=
  if best.size < run.2 then do
    let a ← (i + 1).psub run.2
    let b ← (run.1 + 1).psub run.2
    return ⟨a, b, run.2⟩
  else return best

/-- Fills the table from row `i` on and keeps the best run, with checked differences. -/
def scanRows? (lo hi : Nat) : Nat → List (List Nat) → List (Nat × Nat) → Block → Option Block
  | _, [], _, best => return best
  | i, row :: rest, prev, best => do
    let next := extendRuns lo hi row prev
    let best ← next.foldlM (better? i) best
    scanRows? lo hi (i + 1) rest next best

/-- The longest run of a window, with checked differences. -/
def longestRun? (table : List (List Nat)) (w : Window) : Option Block :=
  scanRows? w.bLo w.bHi w.aLo ((table.drop w.aLo).take (w.aHi - w.aLo)) [] ⟨w.aLo, w.bLo, 0⟩

theorem better?_eq {i : Nat} {run : Nat × Nat} (hi : run.2 ≤ i + 1) (hj : run.2 ≤ run.1 + 1)
    (best : Block) : better? i best run = some (better i best run) := by
  unfold better? better
  split
  · rw [Nat.psub_eq_sub hi, Nat.psub_eq_sub hj]
    rfl
  · rfl

theorem foldlM_better? {i : Nat} {runs : List (Nat × Nat)}
    (h : ∀ run ∈ runs, run.2 ≤ i + 1 ∧ run.2 ≤ run.1 + 1) (best : Block) :
    runs.foldlM (better? i) best = some (runs.foldl (better i) best) := by
  induction runs generalizing best with
  | nil => rfl
  | cons run rest ih =>
    rw [List.forall_mem_cons] at h
    obtain ⟨⟨hi, hj⟩, hrest⟩ := h
    rw [List.foldlM_cons, List.foldl_cons, better?_eq hi hj]
    exact ih hrest _

variable {α : Type} {xs ys : List α} {w : Window}

section Table

variable [DecidableEq α]

/-- From a right row on, no difference falls below zero: a row lists runs, and a run lies in front
of its end. -/
theorem Window.Row.scanRows?_eq {i : Nat} {prev : List (Nat × Nat)} (h : w.Row xs ys i prev)
    (hi : w.aLo ≤ i) (best : Block) :
    scanRows? w.bLo w.bHi i (w.rowsFrom xs ys i) prev best =
      some (scanRows w.bLo w.bHi i (w.rowsFrom xs ys i) prev best) := by
  revert best
  refine h.induction (motive := fun i prev table => ∀ best,
    scanRows? w.bLo w.bHi i table prev best = some (scanRows w.bLo w.bHi i table prev best)) ?_ ?_ hi
  · intro i prev _ best
    rfl
  · intro i prev x _ hnext ih best
    have hends : ∀ run ∈ extendRuns w.bLo w.bHi (places x ys) prev,
        run.2 ≤ i + 1 ∧ run.2 ≤ run.1 + 1 := by
      intro run hrun
      obtain ⟨hleft, hright, -⟩ := (hnext.runsTo hrun).ends
      exact ⟨hleft, hright⟩
    rw [scanRows?, scanRows, foldlM_better? hends]
    exact ih _

/-- **No difference falls below zero.** -/
theorem longestRun?_eq (xs ys : List α) (w : Window) :
    longestRun? (rows xs ys) w = some (longestRun (rows xs ys) w) := by
  rw [longestRun?, longestRun, Window.take_drop_rows]
  exact Window.Row.start.scanRows?_eq (Nat.le_refl _) _

end Table

/-! ## Equal stretches -/

/-- Inside a window the `k` elements from place `i` of the left sequence on are those from place `j`
of the right one on. -/
def Window.Shares (xs ys : List α) (w : Window) (i j k : Nat) : Prop :=
  w.aLo ≤ i ∧ i + k ≤ w.aHi ∧ w.bLo ≤ j ∧ j + k ≤ w.bHi ∧
    (xs.drop i).take k = (ys.drop j).take k

instance [DecidableEq α] (i j k : Nat) : Decidable (w.Shares xs ys i j k) :=
  inferInstanceAs (Decidable (_ ∧ _ ∧ _ ∧ _ ∧ _))

/-- The stretches of a block that does not go beyond the left sequence match if they are equal. -/
theorem Block.matches_iff {m : Block} (hend : m.a + m.size ≤ xs.length) :
    m.Matches xs ys ↔ (xs.drop m.a).take m.size = (ys.drop m.b).take m.size := by
  constructor
  · intro h
    refine List.ext_getElem? fun k => ?_
    rw [List.getElem?_take, List.getElem?_take, List.getElem?_drop, List.getElem?_drop]
    split
    · next hk =>
      obtain ⟨x, hx, hy⟩ := h k hk
      rw [hx, hy]
    · rfl
  · intro h k hk
    have hget := congrArg (·[k]?) h
    simp only [List.getElem?_take, List.getElem?_drop, if_pos hk] at hget
    have hx : xs[m.a + k]? = some xs[m.a + k] := List.getElem?_eq_getElem (by omega)
    exact ⟨_, hx, hget ▸ hx⟩

theorem Window.holds_iff_shares (hxs : w.aHi ≤ xs.length) {i j k : Nat} :
    w.Holds xs ys ⟨i, j, k⟩ ↔ w.Shares xs ys i j k := by
  constructor
  · intro h
    have hsame := (Block.matches_iff (h.leftEnd.trans hxs)).1 h.same
    exact ⟨h.left, h.leftEnd, h.right, h.rightEnd, hsame⟩
  · rintro ⟨hleft, hleftEnd, hright, hrightEnd, hsame⟩
    exact ⟨hleft, hleftEnd, hright, hrightEnd, (Block.matches_iff (hleftEnd.trans hxs)).2 hsame⟩

/-! ## The longest run -/

/-- Where nothing is shared the longest run is the empty one at the corner. -/
theorem Window.Longest.eq_corner_iff {m : Block} (h : w.Longest xs ys m) :
    m = w.corner ↔ w.Apart xs ys := by
  have hleft := h.held.left
  have hleftEnd := h.held.leftEnd
  have hright := h.held.right
  have hrightEnd := h.held.rightEnd
  constructor
  · rintro rfl
    exact h.apart rfl
  · intro hapart
    have hzero : m.size = 0 := by
      by_contra hne
      obtain ⟨x, hx, hy⟩ := h.held.same 0 (by omega)
      exact hapart m.a m.b x hleft (by omega) hright (by omega) hx hy
    have hcorner : w.Longest xs ys w.corner :=
      ⟨holds_corner (by omega) (by omega), fun n hn => (h.longest n hn).trans_eq hzero,
        fun n hn _ => hn.corner_le⟩
    exact h.eq hcorner

/-- **The run table finds the first of the longest runs of a window.** The stretches that it gives
are equal and inside the window; no others there are longer, and of those as long none begins
earlier in the left sequence or, at the same place there, earlier in the right one. The run is the
empty one at the corner if and only if the two sides of the window have no element in common. No
difference of places falls below zero on the way. -/
theorem longestRun_first_longest [DecidableEq α] (ha : w.aLo ≤ w.aHi) (hxs : w.aHi ≤ xs.length)
    (hb : w.bLo ≤ w.bHi) :
    ∃ i j k, longestRun (rows xs ys) w = ⟨i, j, k⟩ ∧
      longestRun? (rows xs ys) w = some ⟨i, j, k⟩ ∧
      w.Shares xs ys i j k ∧
      (∀ i' j' k', w.Shares xs ys i' j' k' → k' ≤ k ∧ (k' = k → i < i' ∨ i = i' ∧ j ≤ j')) ∧
      ((i, j, k) = (w.aLo, w.bLo, 0) ↔ w.Apart xs ys) := by
  have hlongest : w.Longest xs ys (longestRun (rows xs ys) w) := longest_longestRun ha hb
  have hchecked := longestRun?_eq xs ys w
  generalize longestRun (rows xs ys) w = m at hlongest hchecked ⊢
  obtain ⟨i, j, k⟩ := m
  refine ⟨i, j, k, rfl, hchecked, (Window.holds_iff_shares hxs).1 hlongest.held, ?_, ?_⟩
  · intro i' j' k' hshares
    have hheld := (Window.holds_iff_shares hxs).2 hshares
    refine ⟨hlongest.longest _ hheld, fun hsize => ?_⟩
    exact Block.le_iff.1 (hlongest.first _ hheld hsize)
  · rw [← hlongest.eq_corner_iff, Window.corner, Block.mk.injEq, Prod.mk.injEq, Prod.mk.injEq]

/-- The left side of the window holds the run of `a` and `b` twice, the right side once. -/
theorem longestRun_first_longest_twice :
    1 ≤ 6 ∧ 6 ≤ "xabyab".toList.length ∧ 2 ≤ 5 ∧
      longestRun (rows "xabyab".toList "zabab".toList) ⟨1, 6, 2, 5⟩ = ⟨1, 3, 2⟩ ∧
      longestRun? (rows "xabyab".toList "zabab".toList) ⟨1, 6, 2, 5⟩ = some ⟨1, 3, 2⟩ ∧
      (⟨1, 6, 2, 5⟩ : Window).Shares "xabyab".toList "zabab".toList 4 3 2 ∧
      ∀ i j k, (⟨1, 6, 2, 5⟩ : Window).Shares "xabyab".toList "zabab".toList i j k →
        k ≤ 2 ∧ (k = 2 → 1 < i ∨ 1 = i ∧ 3 ≤ j) := by
  have hlen : 6 ≤ "xabyab".toList.length := by decide
  have hrun : longestRun (rows "xabyab".toList "zabab".toList) ⟨1, 6, 2, 5⟩ = ⟨1, 3, 2⟩ := by
    decide
  have hother : (⟨1, 6, 2, 5⟩ : Window).Shares "xabyab".toList "zabab".toList 4 3 2 := by
    decide
  obtain ⟨i, j, k, hfound, hchecked, -, hfirst, -⟩ :=
    @longestRun_first_longest _ "xabyab".toList "zabab".toList ⟨1, 6, 2, 5⟩ _ (by decide) hlen
      (by decide)
  rw [hrun] at hfound
  cases hfound
  exact ⟨by decide, hlen, by decide, hrun, hchecked, hother, hfirst⟩

end NearDup.Align
