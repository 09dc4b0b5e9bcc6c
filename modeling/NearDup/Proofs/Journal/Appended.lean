import NearDup.Proofs.Journal
import NearDup.Proofs.Journal.Lines
import NearDup.Proofs.Text.Utf8

/-!
# What is read after records are written

A record that is written is bytes at the end of the journal, whatever stood there before. When the
journal was missing or ended its last line, the record is read behind those before it. When its last
line lacked its end, the record stands on that line, and is lost with it.

* `Journal.find_append` — bytes are written at the end of the journal
* `Journal.Ready` — the journal is missing, or ends its last line
* `Journal.records_append` — a record that is written is read behind those before it
* `Journal.records_torn` — what is read when the end of the journal was cut off in between
-/

namespace NearDup

open NearDup.Tree Effect Text.Utf8

variable {t t' : Tree} {path : String} {loc : Location} {bytes : List UInt8} {r : Record}
  {rs : List Record}

/-- What is found is found when the directories are made. -/
theorem Tree.find_withParents {x : Entry} (h : t.find path = .ok (loc, x)) (other : String) :
    (t.withParents other).find path = .ok (loc, x) := by
  obtain ⟨dirs, -, hadds⟩ := adds_ensureParent other t
  exact hadds.find h

namespace Journal

/-! ## The bytes -/

/-- The bytes of a record are found behind those that were opened. -/
theorem find_put_opened {before : List UInt8} (ho : t.openFile path = .ok (loc, before))
    (bytes : List UInt8) : (t.put loc (.file bytes)).find path = .ok (loc, .file bytes) := by
  obtain ⟨hm, hg⟩ := openFile_ok ho
  exact find_put_self hm.followed (hg.imp_right fun h => ⟨before, h⟩) bytes

/-- **A record is written at the end of a journal that is there.** -/
theorem find_append (h : (append path r).perform t = (.ok (), t'))
    (hf : t.find path = .ok (loc, .file bytes)) :
    t'.find path = .ok (loc, .file (bytes ++ lineBytes r)) := by
  obtain ⟨place, before, ho, rfl⟩ := append_eq_ok h
  have hf := find_withParents hf path
  rw [find_put_opened ho]
  rcases openFile_eq_ok_iff.1 ho with hr | ⟨hr, -⟩
  · obtain ⟨hm, hg⟩ := meets_of_entry hr (by simp)
    have hsame := hm.find_file hg
    rw [hf] at hsame
    cases hsame
    rfl
  · obtain ⟨hm, hg⟩ := meets_of_vacant hr
    have hnone := hm.followed.has_eq_false hg
    rw [has_of_find hf] at hnone
    cases hnone

/-- A journal that is missing is made for the record. -/
theorem find_append_of_missing (h : (append path r).perform t = (.ok (), t'))
    (hn : (t.withParents path).has path = false) :
    ∃ loc, (t.withParents path).resolve .followed path = .ok (.vacant loc) ∧
      t'.find path = .ok (loc, .file (lineBytes r)) := by
  obtain ⟨place, before, ho, rfl⟩ := append_eq_ok h
  rcases openFile_eq_ok_iff.1 ho with hr | ⟨hr, rfl⟩
  · obtain ⟨hm, hg⟩ := meets_of_entry hr (by simp)
    rw [has_of_find (hm.find_file hg)] at hn
    cases hn
  · obtain ⟨hm, hg⟩ := meets_of_vacant hr
    rw [List.nil_append]
    exact ⟨place, hm.followed.resolve_vacant hg, find_put_opened ho _⟩

/-! ## The records -/

theorem readText_of_find {text : String} (h : t.find path = .ok (loc, .file (encode text))) :
    t.readText path = .ok text := by
  rw [readText, read_eq_ok_iff.2 ⟨loc, h⟩]
  simp [bind, Except.bind, decode?_encode, pure, Except.pure]

theorem exists_find_of_readText {text : String} (h : t.readText path = .ok text) :
    ∃ loc, t.find path = .ok (loc, .file (encode text)) := by
  unfold readText at h
  cases hr : t.read path with
  | error f => simp [hr, bind, Except.bind] at h
  | ok bytes =>
    obtain ⟨loc, hf⟩ := read_eq_ok_iff.1 hr
    cases hd : decode? bytes with
    | none => simp [hr, hd, bind, Except.bind, throw, throwThe, MonadExceptOf.throw] at h
    | some s =>
      simp only [hr, hd, bind, Except.bind, pure, Except.pure, Except.ok.injEq] at h
      rw [decode?_eq_some_iff.1 hd, h] at hf
      exact ⟨loc, hf⟩

theorem records_of_find {text : String} (h : t.find path = .ok (loc, .file (encode text))) :
    records t path = .ok (recordsOf text) := by
  rw [records, readText_of_find h]

/-- The states that writing a record leaves a journal in, and those it can begin with: the journal
is missing, also once the directories above it are made, or it is a text that ends its last line. -/
def Ready (t : Tree) (path : String) : Prop :=
  (t.withParents path).has path = false ∨
    ∃ text, t.readText path = .ok text ∧ Text.EndsLine text.toList

/-- Nothing is read where the journal can be made once the directories above it are. -/
theorem records_of_vacant (h : (t.withParents path).resolve .followed path = .ok (.vacant loc)) :
    records t path = .ok [] := by
  have hfind : t.find path = .error .noEntry := by
    obtain ⟨dirs, -, hadds⟩ := adds_ensureParent path t
    unfold Tree.find
    rcases resolve_eq_or_meets (t.withParents path) t .followed path with he | ⟨cut, rest, hne, hm⟩
    · rw [he, h]
      rfl
    · have hg : t.get? cut = none := by
        rcases hadds cut with he | ⟨hg, -⟩
        · exact absurd he.symm hne
        · exact hg
      rw [(hm t (.right _ t)).resolve_free hg]
      split <;> rfl
  simp [records, Tree.readText, Tree.read, hfind, bind, Except.bind]

/-- The line of a record stands behind a text that ends its last line and has the records of before.
-/
theorem Ready.exists_text (hready : Ready t path)
    (h : (append path r).perform t = (.ok (), t')) :
    ∃ text, Text.EndsLine text.toList ∧ records t path = .ok (recordsOf text) ∧
      ∃ loc, t'.find path = .ok (loc, .file (encode (text ++ (r.line ++ "\n")))) := by
  rcases hready with hn | ⟨text, htext, hends⟩
  · obtain ⟨loc, hv, hf⟩ := find_append_of_missing h hn
    refine ⟨"", Or.inl rfl, records_of_vacant hv, loc, ?_⟩
    rw [String.empty_append]
    exact hf
  · obtain ⟨loc, hf⟩ := exists_find_of_readText htext
    refine ⟨text, hends, by rw [records, htext], loc, ?_⟩
    rw [encode_append]
    exact find_append h hf

/-- A journal stays ready. -/
theorem Ready.append (hready : Ready t path) (h : (append path r).perform t = (.ok (), t')) :
    Ready t' path := by
  obtain ⟨text, -, -, loc, hf⟩ := hready.exists_text h
  exact Or.inr ⟨_, readText_of_find hf, Text.endsLine_append text (by simp)⟩

/-- **A record that is written is read behind those before it**, and those are read as before. -/
theorem records_append (hready : Ready t path) (h : (append path r).perform t = (.ok (), t')) :
    ∃ before, records t path = .ok before ∧ records t' path = .ok (before ++ [r]) := by
  obtain ⟨text, hends, hbefore, loc, hf⟩ := hready.exists_text h
  refine ⟨recordsOf text, hbefore, ?_⟩
  rw [records_of_find hf, recordsOf_append hends, recordsOf_line]

/-- It is so when the journal holds lines that are no records, and whatever characters stand in the
record. -/
theorem records_append_pastMalformed :
    let r : Record := ⟨"t", .merged, "a\"\n\\", ["é", "\x00"]⟩
    let t : Tree := ⟨[(["j"], .file (encode "x\n\n"))]⟩
    ∃ t', (append "j" r).perform t = (.ok (), t') ∧
      ∃ before, records t "j" = .ok before ∧ records t' "j" = .ok (before ++ [r]) := by
  intro r t
  have hready : Ready t "j" := Or.inr ⟨"x\n\n", by decide +kernel, Or.inr ⟨['x', '\n'], by decide⟩⟩
  have h : (append "j" r).perform t = (.ok (), ((append "j" r).perform t).2) := by decide +kernel
  exact ⟨_, h, records_append hready h⟩

/-- The journal must be missing also once the directories above it are made: a path that goes up
from a missing directory leads to a file as soon as the directory is there. -/
theorem not_records_append_upFromMissing :
    let r : Record := ⟨"t", .merged, "a", ["b"]⟩
    let t : Tree := ⟨[(["j"], .file (lineBytes r))]⟩
    t.readText "x/../j" = .error .noEntry ∧ ∃ t', (append "x/../j" r).perform t = (.ok (), t') ∧
      ¬∃ before, records t "x/../j" = .ok before ∧
        records t' "x/../j" = .ok (before ++ [r]) := by
  intro r t
  have hbefore : records t "x/../j" = .ok [] := by decide +kernel
  have hafter : records ((append "x/../j" r).perform t).2 "x/../j" = .ok [r, r] := by decide +kernel
  refine ⟨by decide +kernel, ((append "x/../j" r).perform t).2, by decide +kernel, ?_⟩
  rintro ⟨before, hb, ha⟩
  rw [hbefore] at hb
  rw [hafter] at ha
  cases hb
  cases ha

/-! ## A journal that is cut off -/

/-- Writes records one after the other. -/
def appendAll (path : String) : List Record → OnTree Unit
  | [] => pure ()
  | r :: rs => do
    append path r
    appendAll path rs

theorem encode_textOf_nil : encode (textOf []) = [] := rfl

theorem encode_textOf_cons (r : Record) (rs : List Record) :
    encode (textOf (r :: rs)) = lineBytes r ++ encode (textOf rs) := by
  rw [textOf_cons, encode_append, lineBytes]

theorem perform_appendAll_cons (h : (appendAll path (r :: rs)).perform t = (.ok (), t')) :
    ∃ t₁, (append path r).perform t = (.ok (), t₁) ∧
      (appendAll path rs).perform t₁ = (.ok (), t') := by
  obtain ⟨_, t₁, hr, hrs⟩ := perform_bind_eq_ok.1 h
  exact ⟨t₁, hr, hrs⟩

theorem find_appendAll (h : (appendAll path rs).perform t = (.ok (), t'))
    (hf : t.find path = .ok (loc, .file bytes)) :
    t'.find path = .ok (loc, .file (bytes ++ encode (textOf rs))) := by
  induction rs generalizing t bytes with
  | nil =>
    cases h
    rw [hf, encode_textOf_nil, List.append_nil]
  | cons r rs ih =>
    obtain ⟨t₁, hr, hrs⟩ := perform_appendAll_cons h
    rw [ih hrs (find_append hr hf), encode_textOf_cons, List.append_assoc]

/-- A journal without a byte: missing, also once the directories above it are made, or empty. -/
def Fresh (t : Tree) (path : String) : Prop :=
  (t.withParents path).has path = false ∨ ∃ loc, t.find path = .ok (loc, .file [])

/-- A fresh journal consists of the lines that are written to it. -/
theorem Fresh.eq_bytes (hfresh : Fresh t path) (h : (appendAll path rs).perform t = (.ok (), t'))
    (hf : t'.find path = .ok (loc, .file bytes)) : bytes = encode (textOf rs) := by
  rcases hfresh with hn | ⟨place, hempty⟩
  · cases rs with
    | nil =>
      cases h
      rw [has_of_find (find_withParents hf path)] at hn
      cases hn
    | cons r rs =>
      obtain ⟨t₁, hr, hrs⟩ := perform_appendAll_cons h
      obtain ⟨place, -, hplace⟩ := find_append_of_missing hr hn
      have hlines := find_appendAll hrs hplace
      rw [hf, ← encode_textOf_cons] at hlines
      simp only [Except.ok.injEq, Prod.mk.injEq, Entry.file.injEq] at hlines
      exact hlines.2
  · have hlines := find_appendAll h hempty
    rw [hf, List.nil_append] at hlines
    simp only [Except.ok.injEq, Prod.mk.injEq, Entry.file.injEq] at hlines
    exact hlines.2

/-- Of the lines of records a beginning is left: whole lines, and the beginning of one more. -/
theorem exists_kept (rs : List Record) (n : Nat) :
    ∃ kept torn, kept <+: rs ∧ (encode (textOf rs)).take n = encode (textOf kept) ++ torn ∧
      (torn = [] ∨ ∃ r, kept ++ [r] <+: rs ∧ torn ≠ [] ∧ torn <+: encode r.line) := by
  induction rs generalizing n with
  | nil => exact ⟨[], [], List.nil_prefix, by simp [encode_textOf_nil], Or.inl rfl⟩
  | cons r rs ih =>
    rw [encode_textOf_cons]
    by_cases hn : (lineBytes r).length ≤ n
    · obtain ⟨kept, torn, hkept, htake, hcases⟩ := ih (n - (lineBytes r).length)
      refine ⟨r :: kept, torn, by simpa using hkept, ?_, ?_⟩
      · rw [List.take_append, List.take_of_length_le hn, htake, encode_textOf_cons,
          List.append_assoc]
      · refine hcases.imp_right ?_
        rintro ⟨next, hnext, hne, hbegins⟩
        exact ⟨next, by simpa using hnext, hne, hbegins⟩
    · -- the cut is in the first line, or right before its end
      have hbytes : lineBytes r = encode r.line ++ encode "\n" := encode_append r.line "\n"
      have hend : (encode "\n").length = 1 := rfl
      rw [hbytes, List.length_append, hend] at hn
      refine ⟨[], (encode r.line).take n, List.nil_prefix, ?_, ?_⟩
      · rw [hbytes, List.append_assoc, List.take_append_of_le_length (by omega),
          encode_textOf_nil, List.nil_append]
      · by_cases hne : (encode r.line).take n = []
        · exact Or.inl hne
        · exact Or.inr ⟨r, by simp, hne, List.take_prefix _ _⟩

/-- **What is read when the end of the journal was cut off between two records.** The lines before
the cut are read. If something of a line is left, then the first record behind the cut stands on
that line and both are lost; and if the cut is within a character, nothing of the journal is read
any more. -/
theorem records_torn {t₁ t₃ : Tree} {later : List Record} {n : Nat} (hfresh : Fresh t path)
    (h₁ : (appendAll path rs).perform t = (.ok (), t₁))
    (hf : t₁.find path = .ok (loc, .file bytes))
    (h₂ : (appendAll path later).perform (t₁.put loc (.file (bytes.take n))) = (.ok (), t₃)) :
    ∃ kept torn, kept <+: rs ∧ bytes.take n = encode (textOf kept) ++ torn ∧
      ((torn = [] ∧ records t₃ path = .ok (kept ++ later)) ∨
       ∃ r, kept ++ [r] <+: rs ∧ torn ≠ [] ∧ torn <+: encode r.line ∧
        ((torn = encode r.line ∧ later = [] ∧ records t₃ path = .ok (kept ++ [r])) ∨
         (decode? torn ≠ none ∧ (torn ≠ encode r.line ∨ later ≠ []) ∧
            records t₃ path = .ok (kept ++ later.tail)) ∨
         (decode? torn = none ∧ records t₃ path = .error (.io path .invalidText)))) := by
  obtain ⟨kept, torn, hkept, htake, hcases⟩ := exists_kept rs n
  rw [← hfresh.eq_bytes h₁ hf] at htake
  obtain ⟨hm, hg⟩ := meets_of_entry (find_eq_ok_iff.1 hf) (by simp)
  have hcut := find_put_self hm (Or.inr ⟨bytes, hg⟩) (bytes.take n)
  have hfound := find_appendAll h₂ hcut
  rw [htake, List.append_assoc] at hfound
  refine ⟨kept, torn, hkept, htake, ?_⟩
  rcases hcases with rfl | ⟨r, hr, hne, hbegins⟩
  · rw [List.nil_append, ← encode_append] at hfound
    refine Or.inl ⟨rfl, ?_⟩
    rw [records_of_find hfound, recordsOf_append (endsLine_textOf kept), recordsOf_textOf,
      recordsOf_textOf]
  · refine Or.inr ⟨r, hr, hne, hbegins, ?_⟩
    cases hd : decode? torn with
    | none =>
      refine Or.inr (Or.inr ⟨rfl, ?_⟩)
      have hnone : decode? (torn ++ encode (textOf later)) = none := by
        refine decode?_append_eq_none hd ((textOf_cases later).imp_right ?_)
        exact fun ⟨more, hmore⟩ => ⟨_, more, hmore, by decide⟩
      have htext : t₃.readText path = .error .invalidText := by
        rw [readText, read_eq_ok_iff.2 ⟨loc, hfound⟩]
        simp [bind, Except.bind, decode?_encode_append, hnone, throw, throwThe,
          MonadExceptOf.throw]
      rw [records, htext]
    | some text =>
      have htorn := decode?_eq_some_iff.1 hd
      rw [htorn] at hne hbegins hfound ⊢
      rw [← encode_append, ← encode_append] at hfound
      have htext : text ≠ "" := by
        rintro rfl
        exact hne rfl
      have hread := records_of_find hfound
      rw [recordsOf_append (endsLine_textOf kept), recordsOf_textOf,
        recordsOf_torn (begins_of_encode_begins hbegins) htext] at hread
      by_cases hwhole : text = r.line ∧ later = []
      · rw [if_pos hwhole] at hread
        exact Or.inl ⟨by rw [hwhole.1], hwhole.2, hread⟩
      · rw [if_neg hwhole] at hread
        refine Or.inr (Or.inl ⟨by simp, (not_and_or.1 hwhole).imp_left fun hdiff he => ?_, hread⟩)
        have hsame := congrArg decode? he
        rw [decode?_encode, decode?_encode] at hsame
        exact hdiff (Option.some.inj hsame)

/-- It is so for a journal in a directory that is made for it, cut off within a character. -/
theorem records_torn_withinCharacter :
    let r : Record := ⟨"t", .merged, "é", []⟩
    ∃ t₁ t₃ bytes, Fresh .empty "d/j" ∧
      (appendAll "d/j" [r, r]).perform .empty = (.ok (), t₁) ∧
      t₁.find "d/j" = .ok (["d", "j"], .file bytes) ∧
      (appendAll "d/j" [r]).perform (t₁.put ["d", "j"] (.file (bytes.take 113))) = (.ok (), t₃) ∧
      ∃ kept torn, kept <+: [r, r] ∧ bytes.take 113 = encode (textOf kept) ++ torn ∧
        ((torn = [] ∧ records t₃ "d/j" = .ok (kept ++ [r])) ∨
         ∃ next, kept ++ [next] <+: [r, r] ∧ torn ≠ [] ∧ torn <+: encode next.line ∧
          ((torn = encode next.line ∧ [r] = [] ∧ records t₃ "d/j" = .ok (kept ++ [next])) ∨
           (decode? torn ≠ none ∧ (torn ≠ encode next.line ∨ [r] ≠ []) ∧
              records t₃ "d/j" = .ok (kept ++ [r].tail)) ∨
           (decode? torn = none ∧ records t₃ "d/j" = .error (.io "d/j" .invalidText)))) := by
  intro r
  have hfresh : Fresh .empty "d/j" := Or.inl (by decide +kernel)
  have h₁ : (appendAll "d/j" [r, r]).perform .empty =
      (.ok (), ((appendAll "d/j" [r, r]).perform .empty).2) := by decide +kernel
  have hf : ((appendAll "d/j" [r, r]).perform .empty).2.find "d/j" =
      .ok (["d", "j"], .file (lineBytes r ++ lineBytes r)) := by decide +kernel
  have h₂ : (appendAll "d/j" [r]).perform (((appendAll "d/j" [r, r]).perform .empty).2.put
      ["d", "j"] (.file ((lineBytes r ++ lineBytes r).take 113))) =
      (.ok (), ((appendAll "d/j" [r]).perform (((appendAll "d/j" [r, r]).perform .empty).2.put
        ["d", "j"] (.file ((lineBytes r ++ lineBytes r).take 113)))).2) := by decide +kernel
  exact ⟨_, _, _, hfresh, h₁, hf, h₂, records_torn hfresh h₁ hf h₂⟩

/-- So what is written behind a cut is not always read: behind one within a line the next record is
not, and behind one within a character none is. -/
theorem not_records_torn_complete :
    let r : Record := ⟨"t", .merged, "é", []⟩
    (appendAll "j" [r]).perform .empty = (.ok (), ⟨[(["j"], .file (lineBytes r))]⟩) ∧
    ∀ n ∈ [5, 48], n < (encode r.line).length ∧
      ∃ t₃, (appendAll "j" [r]).perform ⟨[(["j"], .file ((lineBytes r).take n))]⟩ = (.ok (), t₃) ∧
        ¬∃ cut, (cut = [] ∨ cut = [r]) ∧ records t₃ "j" = .ok (cut ++ [r]) := by
  intro r
  refine ⟨by decide +kernel, ?_⟩
  have hread : ∀ n ∈ [5, 48], n < (encode r.line).length ∧
      ((appendAll "j" [r]).perform ⟨[(["j"], .file ((lineBytes r).take n))]⟩).1 = .ok () ∧
      ∀ cut ∈ [[], [r]], records
        ((appendAll "j" [r]).perform ⟨[(["j"], .file ((lineBytes r).take n))]⟩).2 "j" ≠
          .ok (cut ++ [r]) := by decide +kernel
  intro n hn
  obtain ⟨hlt, hok, hne⟩ := hread n hn
  refine ⟨hlt, _, Prod.ext hok rfl, ?_⟩
  rintro ⟨cut, hcut, h⟩
  exact hne cut (by simpa using hcut) h

end Journal

end NearDup
