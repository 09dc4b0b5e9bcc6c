import Mathlib.Data.List.FinRange
import Mathlib.Data.List.Forall2
import Mathlib.Data.List.Induction
import Mathlib.Data.List.Nodup
import Mathlib.Logic.Function.Basic
import NearDup.Proofs.Analysis

/-!
# The documents of one digest

The groups part the documents whose digest occurs more than once: such a document is in one group
and once in it, and all others are in none. A document is known by its place here, since nothing
keeps two documents from having one name.

The groups can be collected in one pass. It keeps the digests in the order in which they first
appear and, for each of them, the documents that have it; after every document both are what they
would be for the documents so far (`Gathered.Holds.add`). The digests are then gone through in that
order and the documents of each taken out.

* `mem_firstAppearances`, `pairwise_firstAppearances` — the digests in order of first appearance
* `gather`, `takeGroups_gather` — the groups collected in one pass
* `Lists` — a group lists the documents at some places
* `exactGroups_partition` — the groups part the documents with repeated digests
-/

namespace NearDup

variable {docs : List Document} {d : Document} {digest : Digest} {group : ExactGroup}

/-! ## First appearances -/

section FirstAppearances

variable {α : Type} [DecidableEq α] {seen xs : List α} {x : α}

theorem mem_firstAppearances : x ∈ firstAppearances seen xs ↔ x ∈ xs ∧ x ∉ seen := by
  induction xs generalizing seen with
  | nil => simp [firstAppearances]
  | cons y ys ih =>
    rw [firstAppearances]
    split
    · next hy =>
      rw [ih, List.mem_cons]
      refine and_congr_left fun hx => (or_iff_right ?_).symm
      rintro rfl
      exact hx hy
    · next hy =>
      rw [List.mem_cons, List.mem_cons, ih, List.mem_cons]
      by_cases hxy : x = y
      · simp [hxy, hy]
      · simp [hxy]

/-- What comes first among the first appearances appears first. -/
theorem pairwise_firstAppearances (seen xs : List α) :
    (firstAppearances seen xs).Pairwise fun x y => xs.idxOf x < xs.idxOf y := by
  induction xs generalizing seen with
  | nil => exact .nil
  | cons z zs ih =>
    -- behind `z` every other element is one place further back
    have hbehind {x : α} (hx : x ≠ z) : (z :: zs).idxOf x = zs.idxOf x + 1 :=
      List.idxOf_cons_ne _ hx.symm
    have hshift {x y : α} (hx : x ≠ z) (hy : y ≠ z) (h : zs.idxOf x < zs.idxOf y) :
        (z :: zs).idxOf x < (z :: zs).idxOf y := by
      rw [hbehind hx, hbehind hy]
      exact Nat.succ_lt_succ h
    rw [firstAppearances]
    split
    · next hz =>
      have hne : ∀ x ∈ firstAppearances seen zs, x ≠ z := by
        rintro x hx rfl
        exact (mem_firstAppearances.1 hx).2 hz
      exact (ih seen).imp_of_mem fun hx hy h => hshift (hne _ hx) (hne _ hy) h
    · have hne : ∀ x ∈ firstAppearances (z :: seen) zs, x ≠ z := by
        rintro x hx rfl
        exact (mem_firstAppearances.1 hx).2 List.mem_cons_self
      refine List.pairwise_cons.2 ⟨fun y hy => ?_, ?_⟩
      · rw [List.idxOf_cons_self, hbehind (hne y hy)]
        exact Nat.succ_pos _
      · exact (ih (z :: seen)).imp_of_mem fun hx hy h => hshift (hne _ hx) (hne _ hy) h

theorem nodup_firstAppearances (seen xs : List α) : (firstAppearances seen xs).Nodup :=
  (pairwise_firstAppearances seen xs).imp fun h he => by simp [he] at h

/-- One more element is a first appearance unless it was seen before. -/
theorem firstAppearances_concat (seen xs : List α) (x : α) :
    firstAppearances seen (xs ++ [x]) =
      if x ∈ xs ∨ x ∈ seen then firstAppearances seen xs else firstAppearances seen xs ++ [x] := by
  induction xs generalizing seen with
  | nil => simp [firstAppearances]
  | cons y ys ih =>
    rw [List.cons_append, firstAppearances, firstAppearances, ih, ih]
    by_cases hxy : x = y
    · by_cases hy : y ∈ seen <;> simp [hxy, hy]
    · by_cases hy : y ∈ seen <;> simp [hxy, hy, apply_ite (y :: ·)]

end FirstAppearances

/-! ## Groups -/

/-- A digest makes a group if two documents have it. -/
theorem isSome_groupOf_iff :
    (groupOf docs digest).isSome = true ↔ 2 ≤ docs.countP (·.digest = digest) := by
  simp only [List.countP_eq_length_filter, Option.isSome_iff_exists, groupOf_eq_some_iff]
  constructor
  · rintro ⟨_, first, second, rest, hd, -⟩
    simp [hd]
  · intro h
    rcases hd : docs.filter (·.digest = digest) with _ | ⟨first, _ | ⟨second, rest⟩⟩
    · simp [hd] at h
    · simp [hd] at h
    · exact ⟨_, first, second, rest, hd, rfl⟩

theorem groupOf_of_mem (h : group ∈ exactGroups docs) : groupOf docs group.digest = some group := by
  obtain ⟨digest, hof⟩ := exists_digest_of_mem_exactGroups h
  rwa [digest_of_groupOf hof]

/-- The digests of the groups are those that occur twice or more. -/
theorem exists_mem_exactGroups_iff : (∃ g ∈ exactGroups docs, g.digest = digest) ↔
    2 ≤ docs.countP (·.digest = digest) := by
  rw [← isSome_groupOf_iff]
  constructor
  · rintro ⟨g, hg, rfl⟩
    rw [groupOf_of_mem hg]
    rfl
  · intro h
    obtain ⟨g, hg⟩ := Option.isSome_iff_exists.1 h
    have htwo := isSome_groupOf_iff.1 h
    have hpos : 0 < docs.countP (·.digest = digest) := Nat.zero_lt_of_lt htwo
    obtain ⟨d, hd, hdigest⟩ := List.countP_pos_iff.1 hpos
    have hmem : digest ∈ docs.map (·.digest) :=
      List.mem_map.2 ⟨d, hd, of_decide_eq_true hdigest⟩
    have happears := mem_firstAppearances.2 ⟨hmem, List.not_mem_nil⟩
    exact ⟨g, List.mem_filterMap.2 ⟨digest, happears, hg⟩, digest_of_groupOf hg⟩

/-- The groups stand in the order in which their digests first appear. -/
theorem pairwise_exactGroups (docs : List Document) : (exactGroups docs).Pairwise fun g h =>
    (docs.map (·.digest)).idxOf g.digest < (docs.map (·.digest)).idxOf h.digest := by
  refine List.pairwise_filterMap.2 ((pairwise_firstAppearances _ _).imp ?_)
  intro x y hxy g hg h hh
  rwa [digest_of_groupOf hg, digest_of_groupOf hh]

/-! ## One pass -/

/-- The digests seen so far, in order of first appearance, and the documents of each of them. -/
structure Gathered where
  order : List Digest
  bucket : Digest → List Document

namespace Gathered

/-- Puts a document to those of its digest. -/
def add (g : Gathered) (d : Document) : Gathered :=
  { order := if g.bucket d.digest = [] then g.order ++ [d.digest] else g.order
    bucket := Function.update g.bucket d.digest (g.bucket d.digest ++ [d]) }

/-- Takes the documents of each digest out of their bucket; a group is made of two or more. -/
def takeGroups (bucket : Digest → List Document) : List Digest → List ExactGroup
  | [] => []
  | digest :: rest =>
    let others := takeGroups (Function.update bucket digest []) rest
    match bucket digest with
    | first :: second :: more =>
      ⟨digest, (first :: second :: more).map (·.id), first.size⟩ :: others
    | _ => others

/-- Order and buckets are those of some documents. -/
structure Holds (g : Gathered) (docs : List Document) : Prop where
  order : g.order = firstAppearances [] (docs.map (·.digest))
  bucket : ∀ digest, g.bucket digest = docs.filter (·.digest = digest)

/-- With one more document both are those of one more. -/
theorem Holds.add {g : Gathered} (h : g.Holds docs) (d : Document) :
    (g.add d).Holds (docs ++ [d]) := by
  have hempty : g.bucket d.digest = [] ↔ d.digest ∉ docs.map (·.digest) := by
    rw [h.bucket, List.filter_eq_nil_iff, List.mem_map]
    simp
  constructor
  · rw [Gathered.add, List.map_append, List.map_singleton, firstAppearances_concat, ← h.order]
    by_cases hd : d.digest ∈ docs.map (·.digest)
    · rw [if_neg (mt hempty.1 (not_not.2 hd)), if_pos (Or.inl hd)]
    · rw [if_pos (hempty.2 hd), if_neg (by simpa using hd)]
  · intro digest
    rw [Gathered.add, List.filter_append, List.filter_singleton]
    by_cases hd : d.digest = digest
    · subst hd
      simp [h.bucket]
    · simp [Function.update_of_ne (Ne.symm hd), h.bucket, hd]

/-- What is taken out of the buckets of some documents are their groups. -/
theorem takeGroups_eq {bucket : Digest → List Document} {order : List Digest} (hn : order.Nodup)
    (h : ∀ digest ∈ order, bucket digest = docs.filter (·.digest = digest)) :
    takeGroups bucket order = order.filterMap (groupOf docs) := by
  induction order generalizing bucket with
  | nil => rfl
  | cons digest rest ih =>
    obtain ⟨hnot, hrest⟩ := List.nodup_cons.1 hn
    have hothers : takeGroups (Function.update bucket digest []) rest =
        rest.filterMap (groupOf docs) := by
      refine ih hrest fun other hother => ?_
      -- the bucket that is emptied is none of those still to come
      have hne : other ≠ digest := fun he => hnot (he ▸ hother)
      rw [Function.update_of_ne hne]
      exact h other (List.mem_cons_of_mem _ hother)
    rw [takeGroups, hothers, h digest List.mem_cons_self, List.filterMap_cons, groupOf]
    split <;> simp_all

end Gathered

/-- One pass over the documents. -/
def gather (docs : List Document) : Gathered := docs.foldl Gathered.add ⟨[], fun _ => []⟩

theorem gather_holds (docs : List Document) : (gather docs).Holds docs := by
  induction docs using List.reverseRecOn with
  | nil => exact ⟨rfl, fun _ => rfl⟩
  | append_singleton docs d ih =>
    rw [gather, List.foldl_concat]
    exact ih.add d

/-- **The groups are collected in one pass.** -/
theorem takeGroups_gather (docs : List Document) :
    Gathered.takeGroups (gather docs).bucket (gather docs).order = exactGroups docs := by
  have h := gather_holds docs
  rw [h.order, Gathered.takeGroups_eq (nodup_firstAppearances _ _) fun digest _ => h.bucket digest]
  rfl

/-! ## Places -/

/-- The places of the documents with a digest, in order. -/
def placesOf (docs : List Document) (digest : Digest) : List (Fin docs.length) :=
  (List.finRange docs.length).filter fun i => (docs.get i).digest = digest

theorem mem_placesOf {i : Fin docs.length} :
    i ∈ placesOf docs digest ↔ (docs.get i).digest = digest := by
  simp [placesOf]

theorem pairwise_placesOf (docs : List Document) (digest : Digest) :
    (placesOf docs digest).Pairwise (· < ·) := (List.pairwise_lt_finRange _).filter _

/-- The documents at these places are those with the digest. -/
theorem map_placesOf (docs : List Document) (digest : Digest) :
    (placesOf docs digest).map docs.get = docs.filter (·.digest = digest) := by
  conv_rhs => rw [← List.map_get_finRange docs, List.filter_map]
  rfl

theorem length_placesOf (docs : List Document) (digest : Digest) :
    (placesOf docs digest).length = docs.countP (·.digest = digest) := by
  rw [List.countP_eq_length_filter, ← map_placesOf, List.length_map]

/-- A digest that two documents have occurs twice. -/
theorem two_le_countP {i j : Fin docs.length} (hij : i ≠ j)
    (h : (docs.get i).digest = (docs.get j).digest) :
    2 ≤ docs.countP (·.digest = (docs.get i).digest) := by
  have hnodup : [i, j].Nodup := by simpa using hij
  have hsubset : [i, j] ⊆ placesOf docs (docs.get i).digest := by
    simpa [mem_placesOf] using h.symm
  rw [← length_placesOf]
  exact (List.subperm_of_subset hnodup hsubset).length_le

/-- A group lists the documents at some places: all with its digest, in order, two or more. -/
structure Lists (docs : List Document) (places : List (Fin docs.length)) (g : ExactGroup) :
    Prop where
  ascending : places.Pairwise (· < ·)
  all : ∀ i, i ∈ places ↔ (docs.get i).digest = g.digest
  several : 2 ≤ places.length
  files : g.files = places.map fun i => (docs.get i).id
  size : ∃ first, places.head? = some first ∧ g.size = (docs.get first).size

theorem lists_placesOf (h : group ∈ exactGroups docs) :
    Lists docs (placesOf docs group.digest) group := by
  have hof := groupOf_of_mem h
  refine ⟨pairwise_placesOf _ _, fun i => mem_placesOf, ?_, ?_, ?_⟩
  · rw [length_placesOf]
    exact exists_mem_exactGroups_iff.1 ⟨group, h, rfl⟩
  · rw [files_of_groupOf hof, ← map_placesOf, List.map_map]
    rfl
  · obtain ⟨first, second, rest, hfilter, hsize⟩ := size_of_groupOf hof
    rw [← map_placesOf] at hfilter
    obtain ⟨i, places, hplaces, rfl, -⟩ := List.map_eq_cons_iff.1 hfilter
    exact ⟨i, by rw [hplaces, List.head?_cons], hsize⟩

/-- The places that the groups list. -/
def partsOf (docs : List Document) : List (List (Fin docs.length)) :=
  (exactGroups docs).map fun g => placesOf docs g.digest

theorem forall₂_lists (docs : List Document) :
    List.Forall₂ (Lists docs) (partsOf docs) (exactGroups docs) := by
  rw [partsOf, List.forall₂_map_left_iff, List.forall₂_same]
  exact fun g hg => lists_placesOf hg

theorem mem_flatten_partsOf {i : Fin docs.length} :
    i ∈ (partsOf docs).flatten ↔ 2 ≤ docs.countP (·.digest = (docs.get i).digest) := by
  rw [← exists_mem_exactGroups_iff, partsOf, ← List.flatMap_def, List.mem_flatMap]
  simp only [mem_placesOf, eq_comm]

/-- No document is listed twice. -/
theorem nodup_flatten_partsOf (docs : List Document) : (partsOf docs).flatten.Nodup := by
  rw [partsOf, ← List.flatMap_def, List.nodup_flatMap]
  refine ⟨fun g _ => (pairwise_placesOf _ _).imp ne_of_lt, (pairwise_exactGroups docs).imp ?_⟩
  intro g h hgh i hi hi'
  rw [mem_placesOf] at hi hi'
  rw [← hi, ← hi'] at hgh
  exact Nat.lt_irrefl _ hgh

/-- Two documents are in one group exactly if they have one digest. -/
theorem exists_part_iff {i j : Fin docs.length} (hij : i ≠ j) :
    (∃ part ∈ partsOf docs, i ∈ part ∧ j ∈ part) ↔ (docs.get i).digest = (docs.get j).digest := by
  constructor
  · rintro ⟨part, hpart, hi, hj⟩
    obtain ⟨g, -, rfl⟩ := List.mem_map.1 hpart
    rw [mem_placesOf] at hi hj
    exact hi.trans hj.symm
  · intro h
    obtain ⟨g, hg, hdigest⟩ := exists_mem_exactGroups_iff.2 (two_le_countP hij h)
    refine ⟨placesOf docs g.digest, List.mem_map_of_mem hg, ?_, ?_⟩
    · exact mem_placesOf.2 hdigest.symm
    · exact mem_placesOf.2 (h.symm.trans hdigest.symm)

/-- **The groups part the documents whose digest occurs twice or more.** They stand in the order in
which their digests first appear, so these differ; each lists all documents of its digest, two or
more, in order, and has the size of the first; every document of a digest that occurs twice is
listed once, and no other is. One pass over the documents collects them. Where documents have the
digests of their texts, and these do not collide, two documents are in one group exactly if they are
one text. -/
theorem exactGroups_partition (docs : List Document) :
    ∃ parts : List (List (Fin docs.length)),
      List.Forall₂ (Lists docs) parts (exactGroups docs) ∧
      ((exactGroups docs).map (·.digest)).Nodup ∧
      ((exactGroups docs).Pairwise fun g h =>
        (docs.map (·.digest)).idxOf g.digest < (docs.map (·.digest)).idxOf h.digest) ∧
      parts.flatten.Nodup ∧
      (∀ i, i ∈ parts.flatten ↔ 2 ≤ docs.countP (·.digest = (docs.get i).digest)) ∧
      exactGroups docs = Gathered.takeGroups (gather docs).bucket (gather docs).order ∧
      ((∀ d ∈ docs, d.digest = .of d.content) →
        (∀ d ∈ docs, ∀ d' ∈ docs, Digest.of d.content = .of d'.content → d.content = d'.content) →
        ∀ i j, i ≠ j → ((∃ part ∈ parts, i ∈ part ∧ j ∈ part) ↔
          (docs.get i).content = (docs.get j).content)) := by
  have horder := pairwise_exactGroups docs
  refine ⟨partsOf docs, forall₂_lists docs, ?_, horder, nodup_flatten_partsOf docs,
    fun i => mem_flatten_partsOf, (takeGroups_gather docs).symm, ?_⟩
  · refine List.pairwise_map.2 (horder.imp fun h he => ?_)
    rw [he] at h
    exact Nat.lt_irrefl _ h
  · intro hmade apart i j hij
    have hi : docs.get i ∈ docs := List.get_mem _ _
    have hj : docs.get j ∈ docs := List.get_mem _ _
    rw [exists_part_iff hij, hmade _ hi, hmade _ hj]
    exact ⟨apart _ hi _ hj, congrArg Digest.of⟩

/-- Two texts that occur twice, one about the other, and one that occurs once. -/
def interleaved : List Document :=
  [.ofText "a.md" "p", .ofText "b.md" "q", .ofText "c.md" "p", .ofText "d.md" "r",
    .ofText "e.md" "q"]

theorem exactGroups_partition_interleaved :
    (∀ d ∈ interleaved, d.digest = .of d.content) ∧
    (∀ d ∈ interleaved, ∀ d' ∈ interleaved,
      Digest.of d.content = .of d'.content → d.content = d'.content) ∧
    (exactGroups interleaved).map (·.files) = [["a.md", "c.md"], ["b.md", "e.md"]] ∧
    ∃ parts, List.Forall₂ (Lists interleaved) parts (exactGroups interleaved) ∧
      ∀ i j, i ≠ j → ((∃ part ∈ parts, i ∈ part ∧ j ∈ part) ↔
        (interleaved.get i).content = (interleaved.get j).content) := by
  have hmade : ∀ d ∈ interleaved, d.digest = .of d.content := by decide +kernel
  have apart : ∀ d ∈ interleaved, ∀ d' ∈ interleaved,
      Digest.of d.content = .of d'.content → d.content = d'.content := by decide +kernel
  obtain ⟨parts, hlists, -, -, -, -, -, hsame⟩ := exactGroups_partition interleaved
  exact ⟨hmade, apart, by decide +kernel, parts, hlists, hsame hmade apart⟩

end NearDup
