/-!
# Distinct elements

The elements of a list, each once, and how many of them two lists share.
-/

namespace NearDup

/-- The elements of a list, each once. -/
def distinct {α : Type} [DecidableEq α] : List α → List α
  | [] => []
  | x :: xs => if x ∈ xs then distinct xs else x :: distinct xs

theorem mem_distinct {α : Type} [DecidableEq α] {x : α} {xs : List α} :
    x ∈ distinct xs ↔ x ∈ xs := by
  induction xs with
  | nil => simp [distinct]
  | cons y ys ih =>
    simp only [distinct]
    split
    · next h => grind
    · simp [ih]

theorem nodup_distinct {α : Type} [DecidableEq α] (xs : List α) : (distinct xs).Nodup := by
  induction xs with
  | nil => simp [distinct]
  | cons y ys ih =>
    simp only [distinct]
    split
    · exact ih
    · next h => exact List.nodup_cons.2 ⟨fun hy => h (mem_distinct.1 hy), ih⟩

/-- The number of distinct elements two lists share. -/
def sharedCount {α : Type} [DecidableEq α] (xs ys : List α) : Nat :=
  ((distinct xs).filter fun x => x ∈ ys).length

end NearDup
