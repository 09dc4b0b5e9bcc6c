import Mathlib.Data.List.Nodup
import Mathlib.Data.List.SplitBy
import NearDup.Proofs.Align.Alignment

/-!
# Blocks are a recursive decomposition

The blocks of two sequences are what the recursive definition gives: those of what is left of the
longest run, that run, and those of what is right of it, with neighbours that touch made one.

The search works with a list of waiting windows instead. It takes them in another order, leaves out
those with an empty side and gives up after so many steps, so three things have to be seen: working
off a window in front of any waiting list finds the blocks of its decomposition and leaves that list
(`Decomposes.clears`), the order of the blocks in the sequences sorts them again, and the steps are
enough.

* `Decomposes` — the recursive definition
* `Searched` — the search as a loop that nothing cuts short
* `blocks_eq_decomposition` — the search ends, and its blocks are the decomposition, collapsed
* `alignment_blocks` — the blocks of two sequences are an alignment of them
-/

namespace NearDup.Align

variable {α : Type} {xs ys : List α} {w : Window} {m : Block} {ms : List Block}

/-! ## The recursive definition -/

/-- The blocks of a window: none if nothing is shared, else those left of the longest run, that run,
and those right of it. -/
inductive Decomposes (xs ys : List α) : Window → List Block → Prop
  | none {w : Window} {m : Block} : w.Longest xs ys m → m.size = 0 → Decomposes xs ys w []
  | run {w : Window} {m : Block} {left right : List Block} : w.Longest xs ys m → 0 < m.size →
      Decomposes xs ys (w.before m) left → Decomposes xs ys (w.after m) right →
      Decomposes xs ys w (left ++ m :: right)

/-- A window has one decomposition. -/
theorem Decomposes.eq {ns : List Block} (hm : Decomposes xs ys w ms) (hn : Decomposes xs ys w ns) :
    ms = ns := by
  induction hm generalizing ns with
  | none hm hsize =>
    cases hn with
    | none => rfl
    | run hn hpos =>
      rw [hm.eq hn] at hsize
      omega
  | run hm hpos _ _ ihl ihr =>
    cases hn with
    | none hn hsize =>
      rw [hm.eq hn] at hpos
      omega
    | run hn _ hl hr =>
      obtain rfl := hm.eq hn
      rw [ihl hl, ihr hr]

/-- The decomposition of a window aligns it. -/
theorem Decomposes.aligned (h : Decomposes xs ys w ms) : Aligned xs ys w ms := by
  induction h with
  | none hm hsize => exact .nil (hm.apart hsize)
  | run hm hpos _ _ ihl ihr => exact ihl.append hm.held hpos ihr

/-- A window with an empty side has no blocks. -/
theorem Decomposes.eq_nil (h : Decomposes xs ys w ms)
    (hempty : w.aHi ≤ w.aLo ∨ w.bHi ≤ w.bLo) : ms = [] := by
  cases h with
  | none => rfl
  | run hm hpos =>
    have h₁ := hm.held.left
    have h₂ := hm.held.leftEnd
    have h₃ := hm.held.right
    have h₄ := hm.held.rightEnd
    omega

/-! ## Order -/

theorem Aligned.ascending (h : Aligned xs ys w ms) : ms.Pairwise fun m n => m.a < n.a := by
  refine h.ordered.imp_of_mem ?_
  intro m n hm _ hmn
  have hpos := (h.holds m hm).1
  have := hmn.1
  omega

/-- Sorted by their places, the blocks that align a window are in order again. -/
theorem Aligned.sortBy_eq {ns : List Block} (h : Aligned xs ys w ms) (hp : ns.Perm ms) :
    sortBy Block.le ns = ms := by
  have trans : ∀ l m n : Block, l.le m → m.le n → l.le n := by
    intro l m n hlm hmn
    rw [Block.le_iff] at hlm hmn ⊢
    omega
  have total : ∀ m n : Block, m.le n ∨ n.le m := by
    intro m n
    rw [Block.le_iff, Block.le_iff]
    omega
  have hle : ms.Pairwise fun m n => m.le n = true := by
    refine h.ascending.imp ?_
    intro m n hmn
    exact Block.le_iff.2 (Or.inl hmn)
  have hnodup : (ms.map Block.a).Nodup := List.pairwise_map.2 (h.ascending.imp Nat.ne_of_lt)
  have hsort := (sortBy_perm Block.le ns).trans hp
  refine List.Perm.eq_of_pairwise ?_ (pairwise_sortBy trans total ns) hle hsort
  intro m n hm hn hmn hnm
  rw [Block.le_iff] at hmn hnm
  -- no two blocks begin at one place of the left sequence
  exact List.inj_on_of_nodup_map hnodup (hsort.mem_iff.1 hm) hn (by omega)

/-! ## Collapsing -/

/-- The block that touching blocks make together. -/
def joined : List Block → Block
  | [] => ⟨0, 0, 0⟩
  | m :: rest => ⟨m.a, m.b, totalSize (m :: rest)⟩

theorem joined_singleton (m : Block) : joined [m] = m := by
  simp [joined, totalSize]

theorem joined_concat (m n : Block) (ms : List Block) :
    joined (m :: ms ++ [n]) =
      ⟨(joined (m :: ms)).a, (joined (m :: ms)).b, (joined (m :: ms)).size + n.size⟩ := by
  have hsize : ∀ ms : List Block, totalSize (ms ++ [n]) = totalSize ms + n.size := by
    intro ms
    induction ms with
    | nil => simp [totalSize]
    | cons m ms ih => simpa [totalSize, Nat.add_assoc] using ih
  simp only [joined, List.cons_append]
  rw [← List.cons_append, hsize]

/-- A row of touching blocks ends where its last block does. -/
theorem joined_ends (m : Block) {ms : List Block}
    (h : (m :: ms).IsChain fun m n => m.touches n = true) :
    (joined (m :: ms)).a + (joined (m :: ms)).size =
        ((m :: ms).getLast (List.cons_ne_nil m ms)).a +
          ((m :: ms).getLast (List.cons_ne_nil m ms)).size ∧
      (joined (m :: ms)).b + (joined (m :: ms)).size =
        ((m :: ms).getLast (List.cons_ne_nil m ms)).b +
          ((m :: ms).getLast (List.cons_ne_nil m ms)).size := by
  induction ms generalizing m with
  | nil => simp [joined_singleton]
  | cons n rest ih =>
    obtain ⟨ht, hrest⟩ := List.isChain_cons_cons.1 h
    rw [Block.touches_iff] at ht
    have hn := ih n hrest
    rw [List.getLast_cons (List.cons_ne_nil n rest)]
    simp only [joined, totalSize, List.foldr_cons] at hn ⊢
    omega

/-- Collapsing makes every longest row of touching blocks one block. -/
theorem collapseOnto_joined (m : Block) {row : List Block}
    (h : (m :: row).IsChain fun m n => m.touches n = true) (ms : List Block) :
    collapseOnto (joined (m :: row)) ms =
      ((m :: row ++ ms).splitBy Block.touches).map joined := by
  induction ms generalizing m row with
  | nil =>
    rw [List.append_nil, List.splitBy_of_isChain (List.cons_ne_nil m row) h]
    rfl
  | cons n rest ih =>
    have hends := joined_ends m h
    have htouch : (joined (m :: row)).touches n =
        ((m :: row).getLast (List.cons_ne_nil m row)).touches n := by
      rw [Block.touches, Block.touches, hends.1, hends.2]
    rw [collapseOnto]
    split
    · next ht =>
      -- the row grows by `n`
      have hlonger : (m :: (row ++ [n])).IsChain fun m n => m.touches n = true := by
        rw [← List.cons_append, List.isChain_append]
        refine ⟨h, List.isChain_singleton n, ?_⟩
        intro x hx y hy
        rw [List.getLast?_eq_getLast_of_ne_nil (List.cons_ne_nil m row), Option.mem_some_iff] at hx
        simp only [List.head?_cons, Option.mem_some_iff] at hy
        rw [← hx, ← hy, ← htouch]
        exact ht
      have hcoll := ih m hlonger
      rw [← List.cons_append, joined_concat] at hcoll
      rw [hcoll, List.append_assoc]
      rfl
    · next ht =>
      have hsplit : (m :: row ++ n :: rest).splitBy Block.touches =
          (m :: row).splitBy Block.touches ++ (n :: rest).splitBy Block.touches := by
        apply List.splitBy_append_cons
        intro x hx
        rw [List.getLast?_eq_getLast_of_ne_nil (List.cons_ne_nil m row), Option.mem_some_iff] at hx
        rw [← hx, ← htouch]
        simpa using ht
      have hcoll := ih n (List.isChain_singleton n)
      rw [joined_singleton] at hcoll
      rw [hsplit, List.splitBy_of_isChain (List.cons_ne_nil m row) h, hcoll]
      rfl

/-- **Collapsing joins the rows of touching neighbours.** -/
theorem collapse_eq (ms : List Block) :
    collapse ms = (ms.splitBy Block.touches).map joined := by
  cases ms with
  | nil => rfl
  | cons m rest =>
    have h := collapseOnto_joined m (List.isChain_singleton m) rest
    rwa [joined_singleton] at h

/-! ## The search as a loop -/

/-- Working off waiting windows, with the blocks `found` so far, ends with the blocks `all` after
`n` windows. -/
inductive Searched (table : List (List Nat)) :
    Nat → List Window → List Block → List Block → Prop
  | done {found : List Block} : Searched table 0 [] found found
  | skip {n : Nat} {w : Window} {waiting : List Window} {found all : List Block} :
      (longestRun table w).size = 0 → Searched table n waiting found all →
      Searched table (n + 1) (w :: waiting) found all
  | take {n : Nat} {w : Window} {m : Block} {waiting : List Window} {found all : List Block} :
      longestRun table w = m → 0 < m.size →
      Searched table n (rightOf w m ++ leftOf w m ++ waiting) (m :: found) all →
      Searched table (n + 1) (w :: waiting) found all

/-- A search that is allowed enough windows gives what the loop ends with. -/
theorem Searched.search_eq {table : List (List Nat)} {n : Nat} {waiting : List Window}
    {found all : List Block} (h : Searched table n waiting found all) {fuel : Nat}
    (hfuel : n ≤ fuel) : search table fuel waiting found = all := by
  induction h generalizing fuel with
  | done =>
    cases fuel with
    | zero => rfl
    | succ fuel => rfl
  | skip hsize _ ih =>
    obtain ⟨fuel, rfl⟩ : ∃ k, fuel = k + 1 := ⟨fuel - 1, by omega⟩
    simp only [search]
    rw [if_pos hsize]
    exact ih (by omega)
  | take hm hpos _ ih =>
    obtain ⟨fuel, rfl⟩ : ∃ k, fuel = k + 1 := ⟨fuel - 1, by omega⟩
    simp only [search, hm]
    rw [if_neg (by omega)]
    exact ih (by omega)

/-- In front of any waiting list and with any blocks found so far, `k` steps work off the windows
`ws` and find the blocks `ms`. -/
def Clears (table : List (List Nat)) (ws : List Window) (ms : List Block) (k : Nat) : Prop :=
  ∀ n waiting found all, Searched table n waiting (ms ++ found) all →
    Searched table (k + n) (ws ++ waiting) found all

namespace Clears

variable {table : List (List Nat)} {ws vs : List Window} {ns : List Block} {k l : Nat}

theorem nil : Clears table [] [] 0 := by
  intro n waiting found all h
  simpa using h

theorem append (hw : Clears table ws ms k) (hv : Clears table vs ns l) :
    Clears table (ws ++ vs) (ns ++ ms) (k + l) := by
  intro n waiting found all h
  rw [List.append_assoc] at h
  have h := hw _ _ _ _ (hv _ _ _ _ h)
  rwa [← Nat.add_assoc, ← List.append_assoc] at h

theorem skip (hsize : (longestRun table w).size = 0) : Clears table [w] [] 1 := by
  intro n waiting found all h
  rw [Nat.add_comm]
  exact .skip hsize h

theorem take (hm : longestRun table w = m) (hpos : 0 < m.size)
    (h : Clears table (rightOf w m ++ leftOf w m) ms k) :
    Clears table [w] (ms ++ [m]) (k + 1) := by
  intro n waiting found all hs
  rw [List.append_assoc] at hs
  have hs := h _ _ _ _ hs
  rw [show k + 1 + n = k + n + 1 by omega]
  exact .take hm hpos hs

/-- A window that holds nothing may be left out. -/
theorem optional {p : Prop} [Decidable p] (h : Clears table [w] ms k) (hnone : ¬p → ms = []) :
    ∃ l ≤ k, Clears table (if p then [w] else []) ms l := by
  split
  · exact ⟨k, Nat.le_refl k, h⟩
  · next hp =>
    rw [hnone hp]
    exact ⟨0, Nat.zero_le k, nil⟩

end Clears

/-! ## The search finds the decomposition -/

variable [DecidableEq α]

/-- Every window has a decomposition: what is beside its longest run is shorter. -/
theorem exists_decomposes (ha : w.aLo ≤ w.aHi) (hb : w.bLo ≤ w.bHi) :
    ∃ ms, Decomposes xs ys w ms := by
  induction hk : w.aHi - w.aLo using Nat.strongRecOn generalizing w with
  | ind k ih =>
    have hm : w.Longest xs ys (longestRun (rows xs ys) w) := longest_longestRun ha hb
    generalize longestRun (rows xs ys) w = m at hm
    by_cases hsize : m.size = 0
    · exact ⟨[], .none hm hsize⟩
    · have h₁ := hm.held.left
      have h₂ := hm.held.leftEnd
      have h₃ := hm.held.right
      have h₄ := hm.held.rightEnd
      obtain ⟨left, hl⟩ := ih (m.a - w.aLo) (by omega) (w := w.before m) h₁ h₃ rfl
      obtain ⟨right, hr⟩ := ih (w.aHi - (m.a + m.size)) (by omega) (w := w.after m) h₂ h₄ rfl
      exact ⟨left ++ m :: right, .run hm (by omega) hl hr⟩

open scoped List in
/-- Working off a window finds the blocks of its decomposition, in some order. -/
theorem Decomposes.clears (h : Decomposes xs ys w ms) :
    ∃ ns k, ns.Perm ms ∧ k ≤ 2 * (w.aHi - w.aLo) + 1 ∧ Clears (rows xs ys) [w] ns k := by
  induction h with
  | @none w m hm hsize =>
    have hw := hm.held
    have heq : longestRun (rows xs ys) w = m :=
      (longest_longestRun (Nat.le_trans hw.left (Nat.le_trans (Nat.le_add_right _ _) hw.leftEnd))
        (Nat.le_trans hw.right (Nat.le_trans (Nat.le_add_right _ _) hw.rightEnd))).eq hm
    exact ⟨[], 1, .refl _, by omega, .skip (by rw [heq]; exact hsize)⟩
  | @run w m left right hm hpos hleft hright ihl ihr =>
    have h₁ := hm.held.left
    have h₂ := hm.held.leftEnd
    have h₃ := hm.held.right
    have h₄ := hm.held.rightEnd
    have heq : longestRun (rows xs ys) w = m :=
      (longest_longestRun (by omega) (by omega)).eq hm
    obtain ⟨ls, i, hls, hi, hcl⟩ := ihl
    obtain ⟨rs, j, hrs, hj, hcr⟩ := ihr
    simp only [Window.before, Window.after] at hi hj
    -- a side that is not put on the list is empty, and nothing is found in it
    obtain ⟨i', hi', hcl⟩ := hcl.optional (p := w.aLo < m.a ∧ w.bLo < m.b) fun hp => by
      rw [hleft.eq_nil (by simp only [Window.before]; omega)] at hls
      exact hls.eq_nil
    obtain ⟨j', hj', hcr⟩ := hcr.optional (p := m.a + m.size < w.aHi ∧ m.b + m.size < w.bHi)
      fun hp => by
        rw [hright.eq_nil (by simp only [Window.after]; omega)] at hrs
        exact hrs.eq_nil
    refine ⟨ls ++ rs ++ [m], j' + i' + 1, ?_, by omega, .take heq hpos (hcr.append hcl)⟩
    calc ls ++ rs ++ [m]
        _ ~ m :: (ls ++ rs) := List.perm_append_singleton m _
        _ ~ ls ++ m :: rs := List.perm_middle.symm
        _ ~ left ++ m :: right := hls.append (hrs.cons m)

theorem exists_decomposes_whole (xs ys : List α) :
    ∃ ms, Decomposes xs ys (whole xs ys) ms :=
  exists_decomposes (Nat.zero_le _) (Nat.zero_le _)

/-- The search of two sequences ends in time, with the blocks of their decomposition. -/
theorem Decomposes.searched (h : Decomposes xs ys (whole xs ys) ms) :
    ∃ found n, n ≤ 2 * xs.length + 1 ∧ found.Perm ms ∧
      Searched (rows xs ys) n [whole xs ys] [] found := by
  obtain ⟨found, k, hp, hk, hclears⟩ := h.clears
  refine ⟨found, k, hk, hp, ?_⟩
  have hdone : Searched (rows xs ys) 0 [] (found ++ []) found := by
    rw [List.append_nil]
    exact .done
  exact hclears 0 [] [] found hdone

theorem Decomposes.blocks_eq (h : Decomposes xs ys (whole xs ys) ms) :
    blocks xs ys = collapse ms := by
  obtain ⟨found, n, hn, hp, hs⟩ := h.searched
  have hfound : search (rows xs ys) (2 * xs.length + 1) [whole xs ys] [] = found :=
    hs.search_eq hn
  rw [blocks, ← h.aligned.sortBy_eq hp, ← hfound]
  rfl

/-- The blocks of two sequences align all of them. -/
theorem aligned_blocks (xs ys : List α) : Aligned xs ys (whole xs ys) (blocks xs ys) := by
  obtain ⟨ms, h⟩ := exists_decomposes_whole xs ys
  rw [h.blocks_eq]
  exact h.aligned.collapse

/-- **The search computes the recursive decomposition.** Its loop ends, the blocks it ends with are,
in order, those of the one decomposition of both sequences, and the blocks returned are these with
every row of touching neighbours made one. -/
theorem blocks_eq_decomposition (xs ys : List α) :
    ∃ found ms n, n ≤ 2 * xs.length + 1 ∧
      Searched (rows xs ys) n [whole xs ys] [] found ∧
      Decomposes xs ys (whole xs ys) ms ∧
      (∀ ns, Decomposes xs ys (whole xs ys) ns → ns = ms) ∧
      sortBy Block.le found = ms ∧
      blocks xs ys = (ms.splitBy Block.touches).map joined := by
  obtain ⟨ms, h⟩ := exists_decomposes_whole xs ys
  obtain ⟨found, n, hn, hp, hs⟩ := h.searched
  refine ⟨found, ms, n, hn, hs, h, ?_, h.aligned.sortBy_eq hp, ?_⟩
  · intro ns hns
    exact hns.eq h
  · rw [h.blocks_eq, collapse_eq]

/-- **The blocks of two sequences are an alignment of them**: they match, stand in order in both, do
not touch, and leave no gap that shares an element. -/
theorem alignment_blocks (xs ys : List α) : Alignment xs ys (blocks xs ys) := by
  refine (aligned_blocks xs ys).alignment ?_
  exact separate_collapse _

end NearDup.Align
