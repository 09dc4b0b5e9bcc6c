/-!
# Longest common runs

A run is a stretch of consecutive elements that two sequences share. Inside a window — a range of
the left sequence and a range of the right one — the longest run is found with a table that is
filled row by row: for each place `i` of the left sequence, the places `j` of the right one that
hold the same element, each with the length of the run that ends at `i` and `j`. A row is short
where elements are rare, and both a row and the row before it ascend in `j`, so one walk with a
cursor that only moves forward extends the runs.

## Main definitions

* `rows` — for each element of the left sequence its places in the right one
* `longestRun` — the longest run of a window; of several, the one earliest in the left sequence,
  then earliest in the right one; a block of size 0 at the window's corner if nothing is shared
-/

namespace NearDup.Align

/-- A stretch of `size` elements from `a` on in the left sequence and from `b` on in the right. -/
structure Block where
  a : Nat
  b : Nat
  size : Nat
  deriving DecidableEq, Repr

/-- A half-open range of each sequence. -/
structure Window where
  aLo : Nat
  aHi : Nat
  bLo : Nat
  bHi : Nat
  deriving DecidableEq, Repr

/-! ## Places of elements -/

variable {α : Type} [DecidableEq α]

/-- The places of `x` in a list whose first element is at place `k`, ascending. -/
def placesFrom (x : α) : Nat → List α → List Nat
  | _, [] => []
  | k, y :: ys => if x = y then k :: placesFrom x (k + 1) ys else placesFrom x (k + 1) ys

/-- The places of `x` in `ys`, ascending. -/
def places (x : α) (ys : List α) : List Nat := placesFrom x 0 ys

/-- Each distinct element of the left sequence with its places in the right one. -/
def placeTable (ys : List α) : List α → List (α × List Nat) → List (α × List Nat)
  | [], table => table
  | x :: xs, table =>
    if table.any (·.1 = x) then placeTable ys xs table
    else placeTable ys xs ((x, places x ys) :: table)

/-- What a table holds for `x`. -/
def lookUp (x : α) : List (α × List Nat) → List Nat
  | [] => []
  | (y, ps) :: rest => if y = x then ps else lookUp x rest

/-- For each element of `xs` its places in `ys`; equal elements share one list. -/
def rows (xs ys : List α) : List (List Nat) :=
  let table := placeTable ys xs []
  xs.map fun x => lookUp x table

example : rows "abca".toList "xaabb".toList = [[1, 2], [3, 4], [], [1, 2]] := by decide

/-- A table whose entries are right gives the places of each element it lists. -/
theorem lookUp_eq_places {ys : List α} {x : α} {table : List (α × List Nat)}
    (right : ∀ e ∈ table, e.2 = places e.1 ys) (listed : ∃ e ∈ table, e.1 = x) :
    lookUp x table = places x ys := by
  induction table with
  | nil => simp at listed
  | cons e rest ih =>
    obtain ⟨y, ps⟩ := e
    simp only [lookUp]
    split
    · next h =>
      subst h
      exact right (y, ps) (by simp)
    · next h =>
      refine ih (fun e he => right e (by simp [he])) ?_
      obtain ⟨e, he, hx⟩ := listed
      rcases List.mem_cons.1 he with rfl | he
      · exact absurd hx h
      · exact ⟨e, he, hx⟩

theorem placeTable_right {ys : List α} {xs : List α} {table : List (α × List Nat)}
    (right : ∀ e ∈ table, e.2 = places e.1 ys) :
    (∀ e ∈ placeTable ys xs table, e.2 = places e.1 ys) ∧
      ∀ x, (x ∈ xs ∨ ∃ e ∈ table, e.1 = x) → ∃ e ∈ placeTable ys xs table, e.1 = x := by
  induction xs generalizing table with
  | nil => exact ⟨right, by simp [placeTable]⟩
  | cons x xs ih =>
    simp only [placeTable]
    split
    · next h =>
      obtain ⟨h₁, h₂⟩ := ih right
      refine ⟨h₁, fun z hz => h₂ z ?_⟩
      rcases hz with hz | hz
      · rcases List.mem_cons.1 hz with rfl | hz
        · exact Or.inr (by simpa using h)
        · exact Or.inl hz
      · exact Or.inr hz
    · next h =>
      have more : ∀ e ∈ (x, places x ys) :: table, e.2 = places e.1 ys := by
        intro e he
        rcases List.mem_cons.1 he with rfl | he
        · rfl
        · exact right e he
      obtain ⟨h₁, h₂⟩ := ih more
      refine ⟨h₁, fun z hz => h₂ z ?_⟩
      rcases hz with hz | ⟨e, he, hz⟩
      · rcases List.mem_cons.1 hz with rfl | hz
        · exact Or.inr ⟨(z, places z ys), by simp, rfl⟩
        · exact Or.inl hz
      · exact Or.inr ⟨e, by simp [he], hz⟩

/-- Sharing changes no row. -/
theorem rows_eq (xs ys : List α) : rows xs ys = xs.map (places · ys) := by
  have none : ∀ e ∈ ([] : List (α × List Nat)), e.2 = places e.1 ys := by simp
  obtain ⟨h₁, h₂⟩ := @placeTable_right _ _ ys xs [] none
  exact List.map_congr_left fun x hx => lookUp_eq_places h₁ (h₂ x (Or.inl hx))

omit [DecidableEq α]

/-! ## The run table -/

/-- The length of the run that ends at `j`, from the runs of the row before that end at `j - 1` or
later. -/
def runLength (j : Nat) : List (Nat × Nat) → Nat
  | [] => 1
  | (i, n) :: _ => if i + 1 = j then n + 1 else 1

/-- One row of the run table from the places of an element and the row before. -/
def extendRuns (lo hi : Nat) : List Nat → List (Nat × Nat) → List (Nat × Nat)
  | [], _ => []
  | j :: js, prev =>
    if j < lo then extendRuns lo hi js prev
    else if hi ≤ j then []
    else
      let prev := prev.dropWhile fun r => r.1 + 1 < j
      (j, runLength j prev) :: extendRuns lo hi js prev

/-- The better of the best run so far and one that ends at `i` and `run.1`. -/
def better (i : Nat) (best : Block) (run : Nat × Nat) : Block :=
  if best.size < run.2 then ⟨i + 1 - run.2, run.1 + 1 - run.2, run.2⟩ else best

/-- Fills the table from row `i` on and keeps the best run. -/
def scanRows (lo hi : Nat) : Nat → List (List Nat) → List (Nat × Nat) → Block → Block
  | _, [], _, best => best
  | i, row :: rest, prev, best =>
    let next := extendRuns lo hi row prev
    scanRows lo hi (i + 1) rest next (next.foldl (better i) best)

/-- The longest run of a window. -/
def longestRun (table : List (List Nat)) (w : Window) : Block :=
  scanRows w.bLo w.bHi w.aLo ((table.drop w.aLo).take (w.aHi - w.aLo)) [] ⟨w.aLo, w.bLo, 0⟩

example : longestRun (rows "xabyab".toList "zabab".toList) ⟨0, 6, 0, 5⟩ = ⟨1, 1, 2⟩ := by decide
example : longestRun (rows "abc".toList "xyz".toList) ⟨1, 3, 1, 3⟩ = ⟨1, 1, 0⟩ := by decide

end NearDup.Align
