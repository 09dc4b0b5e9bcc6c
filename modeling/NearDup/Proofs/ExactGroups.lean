import NearDup.Proofs.Analysis
import NearDup.Proofs.Inbox
import NearDup.Proofs.Text.Utf8

/-!
# What the files of an exact group share

The digest of a document is taken of its text, and the text is read leniently from the bytes on
disk. So the files of a group hold one text, as long as no two texts have one digest. They hold the
same bytes if they are UTF-8, for there is one way to write a text in it; where bytes were replaced
in reading, files of one group can differ, also in size, and the size of the group is that of the
first.

* `exact_files_read_alike` — the files of a group read as one text, and when their bytes are the same
* `exact_files_differ` — a group of two files with different bytes and sizes
-/

namespace NearDup

open NearDup.Tree NearDup.Path Inbox Text

variable {t : Tree} {root : String} {extensions : List String} {settings : AnalysisSettings}
  {docs : List Document} {d : Document} {digest : Digest} {group : ExactGroup}
  {name name' : String} {bytes bytes' : List UInt8}

/-! ## Documents and their files -/

/-- No two documents with different texts have one digest. -/
def CollisionFree (docs : List Document) : Prop :=
  ∀ d ∈ docs, ∀ d' ∈ docs, d.digest = d'.digest → d.content = d'.content

instance (docs : List Document) : Decidable (CollisionFree docs) :=
  inferInstanceAs (Decidable (∀ d ∈ docs, ∀ d' ∈ docs, d.digest = d'.digest → d.content = d'.content))

/-- A document has the text and the size of the file that its name leads to. -/
theorem file_of_mem_load (hw : WellNamed t) (h : load t root extensions = .ok docs)
    (hd : d ∈ docs) : ∃ bytes, t.read (join root d.id) = .ok bytes ∧
      d.content = Utf8.decodeLenient bytes ∧ d.size = bytes.length := by
  obtain ⟨loc, bytes, hf, hmake⟩ := exists_file_of_mem_load hw h hd
  refine ⟨bytes, read_eq_ok_iff.2 ⟨loc, hf⟩, ?_, ?_⟩
  · rw [hmake]
    rfl
  · rw [hmake]
    rfl

/-! ## The files of one digest -/

/-- Every file of a group is that of a document of its digest. -/
theorem file_of_mem_files (hw : WellNamed t) (h : load t root extensions = .ok docs)
    (hof : groupOf docs digest = some group) (hn : name ∈ group.files) :
    ∃ bytes, t.read (join root name) = .ok bytes ∧
      ∃ d ∈ docs, d.digest = digest ∧ d.content = Utf8.decodeLenient bytes := by
  obtain ⟨d, hd, hdig, rfl⟩ := (mem_files_iff hof).1 hn
  obtain ⟨bytes, hb, hcontent, -⟩ := file_of_mem_load hw h hd
  exact ⟨bytes, hb, d, hd, hdig, hcontent⟩

/-- Any two files of a group read as one text. -/
theorem decodeLenient_eq_of_mem_files (hw : WellNamed t) (h : load t root extensions = .ok docs)
    (apart : CollisionFree docs) (hof : groupOf docs digest = some group)
    (hn : name ∈ group.files) (hn' : name' ∈ group.files)
    (hb : t.read (join root name) = .ok bytes) (hb' : t.read (join root name') = .ok bytes') :
    Utf8.decodeLenient bytes = Utf8.decodeLenient bytes' := by
  obtain ⟨read, hread, d, hd, hdig, hcontent⟩ := file_of_mem_files hw h hof hn
  obtain ⟨read', hread', d', hd', hdig', hcontent'⟩ := file_of_mem_files hw h hof hn'
  -- a name leads to one file, so these are the bytes that the documents were read from
  rw [hb] at hread
  rw [hb'] at hread'
  cases hread
  cases hread'
  rw [← hcontent, ← hcontent']
  exact apart d hd d' hd' (hdig.trans hdig'.symm)

/-- A group has two files or more, and the size of the first. -/
theorem size_eq_of_files (hw : WellNamed t) (h : load t root extensions = .ok docs)
    (hof : groupOf docs digest = some group) :
    ∃ first second rest, group.files = first :: second :: rest ∧
      ∃ bytes, t.read (join root first) = .ok bytes ∧ group.size = bytes.length := by
  obtain ⟨first, second, rest, hfilter, hsize⟩ := size_of_groupOf hof
  have hfiles := files_of_groupOf hof
  rw [hfilter] at hfiles
  have hfirst : first ∈ docs.filter (·.digest = digest) := by simp [hfilter]
  obtain ⟨bytes, hb, -, hlen⟩ := file_of_mem_load hw h (List.mem_filter.1 hfirst).1
  exact ⟨first.id, second.id, rest.map Document.id, hfiles, bytes, hb, hsize.trans hlen⟩

/-! ## Groups -/

/-- **The files of a group read as one text.** All of them can be read. Where one of them is UTF-8,
another has the same bytes exactly if it is UTF-8, too. The size of the group is that of its first
file; so if all files are UTF-8, they are the same in bytes and size. -/
theorem exact_files_read_alike (hw : WellNamed t) (h : load t root extensions = .ok docs)
    (apart : CollisionFree docs) (hg : group ∈ (analyze settings docs).exact) :
    (∀ name ∈ group.files, ∃ bytes, t.read (join root name) = .ok bytes) ∧
    (∀ name ∈ group.files, ∀ name' ∈ group.files, ∀ bytes bytes',
      t.read (join root name) = .ok bytes → t.read (join root name') = .ok bytes' →
      Utf8.decodeLenient bytes = Utf8.decodeLenient bytes' ∧
      ((Utf8.decode? bytes).isSome → (bytes' = bytes ↔ (Utf8.decode? bytes').isSome))) ∧
    (∃ first second rest, group.files = first :: second :: rest ∧
      ∃ bytes, t.read (join root first) = .ok bytes ∧ group.size = bytes.length) ∧
    ((∀ name ∈ group.files, ∀ bytes, t.read (join root name) = .ok bytes →
        (Utf8.decode? bytes).isSome) →
      ∃ bytes, group.size = bytes.length ∧
        ∀ name ∈ group.files, t.read (join root name) = .ok bytes) := by
  obtain ⟨digest, hof⟩ := exists_digest_of_mem_exactGroups hg
  have readable : ∀ name ∈ group.files, ∃ bytes, t.read (join root name) = .ok bytes := by
    intro name hn
    obtain ⟨bytes, hb, -⟩ := file_of_mem_files hw h hof hn
    exact ⟨bytes, hb⟩
  have sized := size_eq_of_files hw h hof
  refine ⟨readable, ?_, sized, ?_⟩
  · intro name hn name' hn' bytes bytes' hb hb'
    have hsame := decodeLenient_eq_of_mem_files hw h apart hof hn hn' hb hb'
    exact ⟨hsame, Utf8.eq_iff_of_decodeLenient_eq hsame⟩
  · intro hutf
    -- every file is compared with the first, which the size is taken from
    obtain ⟨first, second, rest, hfiles, bytes, hb, hsize⟩ := sized
    have hfirst : first ∈ group.files := by simp [hfiles]
    refine ⟨bytes, hsize, fun name hn => ?_⟩
    obtain ⟨bytes', hb'⟩ := readable name hn
    have hsame := decodeLenient_eq_of_mem_files hw h apart hof hfirst hn hb hb'
    rwa [(Utf8.eq_iff_of_decodeLenient_eq hsame (hutf first hfirst bytes hb)).2
      (hutf name hn bytes' hb')] at hb'

/-- A byte that is no UTF-8, and the text that it is read as; and two documents that are the same. -/
def replacedByte : Tree :=
  ⟨[(["in"], .dir), (["in", "a.md"], .file [0xFF]), (["in", "b.md"], .file [0xEF, 0xBF, 0xBD]),
    (["in", "c.md"], .file [0x78, 0x0A]), (["in", "d.md"], .file [0x78, 0x0A])]⟩

theorem exact_files_read_alike_replacedByte :
    WellNamed replacedByte ∧
    load replacedByte "in" ["md", "txt"] = .ok (documents replacedByte "in" ["md", "txt"]) ∧
    CollisionFree (documents replacedByte "in" ["md", "txt"]) ∧
    ∃ group ∈ (analyze .default (documents replacedByte "in" ["md", "txt"])).exact,
      group.files = ["c.md", "d.md"] ∧ ∃ bytes, group.size = bytes.length ∧
        ∀ name ∈ group.files, replacedByte.read (join "in" name) = .ok bytes := by
  have hw : WellNamed replacedByte := by decide +kernel
  have hload : load replacedByte "in" ["md", "txt"] =
      .ok (documents replacedByte "in" ["md", "txt"]) := load_eq_ok_iff.2 ⟨by decide +kernel, rfl⟩
  have apart : CollisionFree (documents replacedByte "in" ["md", "txt"]) := by decide +kernel
  obtain ⟨group, hg, hfiles⟩ : ∃ group ∈
      (analyze .default (documents replacedByte "in" ["md", "txt"])).exact,
      group.files = ["c.md", "d.md"] := by decide +kernel
  refine ⟨hw, hload, apart, group, hg, hfiles,
    (exact_files_read_alike hw hload apart hg).2.2.2 fun name hn bytes hb => ?_⟩
  have hutf : ∀ name ∈ ["c.md", "d.md"], (replacedByte.read (join "in" name)).toOption =
      some [0x78, 0x0A] := by decide +kernel
  have hread := hutf name (hfiles ▸ hn)
  rw [hb] at hread
  cases hread
  rfl

/-- **Files of one group can differ in bytes and size**, and the size of the group is not that of
each of them. -/
theorem exact_files_differ :
    WellNamed replacedByte ∧
    load replacedByte "in" ["md", "txt"] = .ok (documents replacedByte "in" ["md", "txt"]) ∧
    CollisionFree (documents replacedByte "in" ["md", "txt"]) ∧
    ∃ group ∈ (analyze .default (documents replacedByte "in" ["md", "txt"])).exact,
      group.files = ["a.md", "b.md"] ∧ group.size = 1 ∧
      replacedByte.read (join "in" "a.md") = .ok [0xFF] ∧
      replacedByte.read (join "in" "b.md") = .ok [0xEF, 0xBF, 0xBD] := by
  refine ⟨by decide +kernel, load_eq_ok_iff.2 ⟨by decide +kernel, rfl⟩, by decide +kernel, ?_⟩
  decide +kernel

end NearDup
