import Mathlib.Data.List.Chain
import NearDup.Proofs.Align.Longest

/-!
# Alignments

Blocks align two sequences if they match, stand in order in both, do not touch, and leave gaps that
share nothing: no element between two neighbours on the left is equal to one between them on the
right, nor is one before the first block or behind the last.

Inside a window the same is said recursively (`Aligned`): nothing is shared before the first block,
and the others align what is behind it. In this form two alignments on either side of a block make
one (`Aligned.append`), and collapsing blocks that touch opens no gap (`Aligned.collapse`).

* `Alignment` — blocks align two sequences
* `Aligned` — blocks align a window
* `Aligned.alignment` — blocks that align the whole and do not touch are an alignment
-/

namespace NearDup.Align

variable {α : Type} {xs ys : List α} {w : Window} {m n last : Block} {ms left right : List Block}

/-! ## Gaps -/

/-- What is before a block, in both sequences. -/
def Window.before (w : Window) (m : Block) : Window := ⟨w.aLo, m.a, w.bLo, m.b⟩

/-- What is behind a block, in both sequences. -/
def Window.after (w : Window) (m : Block) : Window := ⟨m.a + m.size, w.aHi, m.b + m.size, w.bHi⟩

/-- All of two sequences. -/
def whole (xs ys : List α) : Window := ⟨0, xs.length, 0, ys.length⟩

/-- What blocks leave of a window: before the first, between neighbours, behind the last. -/
def gaps (w : Window) : List Block → List Window
  | [] => [w]
  | m :: rest => w.before m :: gaps (w.after m) rest

/-- No element on the left of a window is equal to one on the right. -/
def Window.Apart (xs ys : List α) (w : Window) : Prop :=
  ∀ i j x, w.aLo ≤ i → i < w.aHi → w.bLo ≤ j → j < w.bHi → xs[i]? = some x → ys[j]? ≠ some x

/-- Where nothing is shared the longest run is empty. -/
theorem Window.Longest.apart (h : w.Longest xs ys m) (hsize : m.size = 0) : w.Apart xs ys := by
  intro i j x hai hi hbj hj hx hy
  have hone : w.Holds xs ys ⟨i, j, 1⟩ := by
    refine ⟨hai, hi, hbj, hj, ?_⟩
    intro k hk
    obtain rfl : k = 0 := Nat.lt_one_iff.1 hk
    exact ⟨x, hx, hy⟩
  have hle : 1 ≤ m.size := h.longest _ hone
  omega

/-! ## Alignments of a window -/

/-- One block ends, in both sequences, before the other begins. -/
def Block.Before (m n : Block) : Prop := m.a + m.size ≤ n.a ∧ m.b + m.size ≤ n.b

/-- Blocks align two sequences. -/
structure Alignment (xs ys : List α) (ms : List Block) : Prop where
  positive : ∀ m ∈ ms, 1 ≤ m.size
  inside : ∀ m ∈ ms, m.a + m.size ≤ xs.length ∧ m.b + m.size ≤ ys.length
  same : ∀ m ∈ ms, m.Matches xs ys
  ordered : ms.Pairwise Block.Before
  separate : ms.IsChain fun m n => m.touches n = false
  saturated : ∀ g ∈ gaps (whole xs ys) ms, g.Apart xs ys

/-- Blocks align a window. -/
inductive Aligned (xs ys : List α) : Window → List Block → Prop
  | nil {w : Window} : w.Apart xs ys → Aligned xs ys w []
  | cons {w : Window} {m : Block} {ms : List Block} : 0 < m.size → w.Holds xs ys m →
      (w.before m).Apart xs ys → Aligned xs ys (w.after m) ms → Aligned xs ys w (m :: ms)

theorem Window.Holds.of_before (h : (w.before m).Holds xs ys n) (hm : w.Holds xs ys m) :
    w.Holds xs ys n := by
  have h₁ := h.leftEnd
  have h₂ := h.rightEnd
  have h₃ := hm.leftEnd
  have h₄ := hm.rightEnd
  simp only [before] at h₁ h₂
  exact ⟨h.left, by omega, h.right, by omega, h.same⟩

theorem Window.Holds.of_after (h : (w.after m).Holds xs ys n) (hm : w.Holds xs ys m) :
    w.Holds xs ys n := by
  have h₁ := h.left
  have h₂ := h.right
  have h₃ := hm.left
  have h₄ := hm.right
  simp only [after] at h₁ h₂
  exact ⟨by omega, h.leftEnd, by omega, h.rightEnd, h.same⟩

/-- What is before a block and what is behind it, aligned each for itself. -/
theorem Aligned.append (hl : Aligned xs ys (w.before m) left) (hm : w.Holds xs ys m)
    (hsize : 0 < m.size) (hr : Aligned xs ys (w.after m) right) :
    Aligned xs ys w (left ++ m :: right) := by
  induction left generalizing w with
  | nil =>
    cases hl with
    | nil hgap => exact .cons hsize hm hgap hr
  | cons n rest ih =>
    cases hl with
    | cons hn hheld hgap hrest =>
      -- `m` lies behind `n`, in what `n` leaves of the window
      have hbehind : (w.after n).Holds xs ys m :=
        ⟨hheld.leftEnd, hm.leftEnd, hheld.rightEnd, hm.rightEnd, hm.same⟩
      exact .cons hn (hheld.of_before hm) hgap (ih hrest hbehind hr)

theorem Aligned.holds (h : Aligned xs ys w ms) : ∀ m ∈ ms, 0 < m.size ∧ w.Holds xs ys m := by
  induction h with
  | nil => simp
  | cons hsize hm _ _ ih =>
    intro n hn
    rcases List.mem_cons.1 hn with rfl | hn
    · exact ⟨hsize, hm⟩
    · obtain ⟨hpos, hn⟩ := ih n hn
      exact ⟨hpos, hn.of_after hm⟩

theorem Aligned.ordered (h : Aligned xs ys w ms) : ms.Pairwise Block.Before := by
  induction h with
  | nil => exact .nil
  | cons _ _ _ hrest ih =>
    refine List.pairwise_cons.2 ⟨?_, ih⟩
    intro n hn
    have hn' := (hrest.holds n hn).2
    exact ⟨hn'.left, hn'.right⟩

theorem Aligned.saturated (h : Aligned xs ys w ms) : ∀ g ∈ gaps w ms, g.Apart xs ys := by
  induction h with
  | nil hgap => simpa [gaps] using hgap
  | cons _ _ hgap _ ih =>
    intro g hg
    rcases List.mem_cons.1 hg with rfl | hg
    · exact hgap
    · exact ih g hg

/-! ## Collapsing -/

theorem Block.touches_iff :
    m.touches n = true ↔ m.a + m.size = n.a ∧ m.b + m.size = n.b := by
  simp [Block.touches]

/-- Two blocks that touch are one longer block. -/
theorem Block.Matches.append (hm : m.Matches xs ys) (hn : n.Matches xs ys)
    (ht : m.touches n = true) : Block.Matches xs ys ⟨m.a, m.b, m.size + n.size⟩ := by
  rw [Block.touches_iff] at ht
  intro k hk
  by_cases hlt : k < m.size
  · exact hm k hlt
  · have h := hn (k - m.size) (by simp only at hk; omega)
    rwa [show n.a + (k - m.size) = m.a + k by omega,
      show n.b + (k - m.size) = m.b + k by omega] at h

theorem Aligned.collapseOnto (h : Aligned xs ys w (last :: ms)) :
    Aligned xs ys w (collapseOnto last ms) := by
  induction ms generalizing w last with
  | nil => exact h
  | cons n rest ih =>
    cases h with
    | cons hsize hlast hgap hrest =>
      rw [Align.collapseOnto]
      split
      · next ht =>
        cases hrest with
        | cons _ hn _ hbehind =>
          refine ih (.cons (by simp only; omega) ?_ hgap ?_)
          · rw [Block.touches_iff] at ht
            have h₁ := hn.leftEnd
            have h₂ := hn.rightEnd
            simp only [Window.after] at h₁ h₂
            exact ⟨hlast.left, by simp only; omega, hlast.right, by simp only; omega,
              hlast.same.append hn.same (Block.touches_iff.2 ht)⟩
          · -- what is behind the longer block is what was behind the second
            obtain ⟨h₁, h₂⟩ := Block.touches_iff.1 ht
            have hafter : w.after ⟨last.a, last.b, last.size + n.size⟩ =
                (w.after last).after n := by
              simp only [Window.after, ← h₁, ← h₂, Nat.add_assoc]
            rw [hafter]
            exact hbehind
      · exact .cons hsize hlast hgap (ih hrest)

/-- Collapsing opens no gap. -/
theorem Aligned.collapse (h : Aligned xs ys w ms) : Aligned xs ys w (collapse ms) := by
  cases ms with
  | nil => exact h
  | cons m rest => exact h.collapseOnto

/-- What is collapsed onto a block begins where the block does. -/
theorem exists_collapseOnto (last : Block) (ms : List Block) :
    ∃ size rest, collapseOnto last ms = ⟨last.a, last.b, size⟩ :: rest := by
  induction ms generalizing last with
  | nil => exact ⟨last.size, [], rfl⟩
  | cons m ms ih =>
    rw [collapseOnto]
    split
    · exact ih ⟨last.a, last.b, last.size + m.size⟩
    · exact ⟨last.size, _, rfl⟩

theorem separate_collapseOnto (last : Block) (ms : List Block) :
    (collapseOnto last ms).IsChain fun m n => m.touches n = false := by
  induction ms generalizing last with
  | nil => exact List.isChain_singleton _
  | cons m ms ih =>
    rw [collapseOnto]
    split
    · exact ih _
    · next ht =>
      obtain ⟨size, rest, hm⟩ := exists_collapseOnto m ms
      have hchain := ih m
      rw [hm] at hchain ⊢
      refine List.isChain_cons_cons.2 ⟨?_, hchain⟩
      simpa [Block.touches] using ht

/-- After collapsing no two neighbours touch. -/
theorem separate_collapse (ms : List Block) :
    (collapse ms).IsChain fun m n => m.touches n = false := by
  cases ms with
  | nil => exact List.isChain_nil
  | cons m rest => exact separate_collapseOnto m rest

/-- Blocks that align all of two sequences and do not touch are an alignment of them. -/
theorem Aligned.alignment (h : Aligned xs ys (whole xs ys) ms)
    (hs : ms.IsChain fun m n => m.touches n = false) : Alignment xs ys ms := by
  refine ⟨?_, ?_, ?_, h.ordered, hs, h.saturated⟩
  · intro m hm
    exact (h.holds m hm).1
  · intro m hm
    exact ⟨(h.holds m hm).2.leftEnd, (h.holds m hm).2.rightEnd⟩
  · intro m hm
    exact (h.holds m hm).2.same

end NearDup.Align
