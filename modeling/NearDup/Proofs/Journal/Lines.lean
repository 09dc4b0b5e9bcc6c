import NearDup.Journal
import NearDup.Proofs.Json.Records
import NearDup.Proofs.Text.Lines

/-!
# Lines of the journal

The line of a record holds no control character, hence no line break, and is read back as that
record. No line that begins with the beginning of one record and goes on with another record is read
as any: neither when the first is cut off nor when it is whole.

* `Record.ofLine?_line` — the line of a record is read back
* `Record.ofLine?_cut`, `Record.ofLine?_torn_append` — what is left of a line that is cut off is no
  record, and neither is what is left with a further line behind it
* `Journal.recordsOf_append` — a text that ends its last line is read by itself
* `Journal.recordsOf_textOf` — what is written for records is read back
* `Journal.recordsOf_torn` — what is left of a line is lost with the line written behind it
-/

namespace NearDup

open Json

variable {r next : Record} {q z : List Char} {c : Char} {line text : String}

namespace Record

/-! ## One line -/

/-- The fields of a record, as they are written. -/
def keys (r : Record) : List (String × Writer) :=
  [("timestamp", .text r.timestamp), ("action", .text r.change.word),
   ("retained", .text r.retained), ("removed", .array (r.removed.map .text))]

theorem toList_line (r : Record) : r.line.toList = Writer.object r.keys .compact 0 := by
  rw [line, Writer.render, String.toList_ofList]
  rfl

theorem reads_change (hz : Resumes z) (c : Change) :
    Reads z Change.reader (.text c.word) c := by
  refine Reads.oneOf hz ?_ fun rest => ?_
  · cases c <;> rfl
  · have hne : ∀ c : Change, (String.ofList ('t' :: rest) == c.word) = false := by
      intro c
      rw [beq_eq_false_iff_ne]
      intro h
      have hhead := congrArg (·.toList.head?) h
      cases c <;> simp [Change.word] at hhead
    simp only [Change.all, List.map_cons, List.map_nil, List.lookup_cons, List.lookup_nil, hne]

theorem fills_keys (hz : Resumes z) (r : Record) :
    Fills z PartialRecord.fields .empty r.keys
      ⟨some r.timestamp, some r.change, some r.retained, some r.removed⟩ := by
  have hitems : Reads z (.array .text) (.array (r.removed.map .text)) r.removed :=
    Reads.array hz (fails_text hz blanks_nil).lost fun s _ => .text hz s
  exact .make rfl rfl (.text hz _) <| .make rfl rfl (reads_change hz _) <|
    .make rfl rfl (.text hz _) <| .make rfl rfl hitems <| .nil _

/-- The line of a record is read, whatever stands behind it. -/
theorem reader_line (r : Record) (rest : List Char) :
    reader (r.line.toList ++ rest) = .ok (r, rest) := by
  have hfinish : PartialRecord.finish
      ⟨some r.timestamp, some r.change, some r.retained, some r.removed⟩ = some r := rfl
  rw [toList_line]
  exact record_object (fills_keys (Or.inl rfl) r) hfinish Layout.isBlank_compact blanks_nil rest

/-- **The line of a record is read back as that record.** -/
theorem ofLine?_line (r : Record) : ofLine? r.line = some r := by
  have hread := reader_line r []
  rw [List.append_nil] at hread
  rw [ofLine?, readWhole, hread]
  rfl

/-- A line begins as every other one does. -/
theorem exists_toList_line (r : Record) :
    ∃ more, r.line.toList = '\x7b' :: '"' :: 't' :: more := by
  have hkey : "timestamp".toList.flatMap escape =
      ['t', 'i', 'm', 'e', 's', 't', 'a', 'm', 'p'] := by decide
  rw [toList_line, keys, object_cons, field_append, hkey]
  exact ⟨_, rfl⟩

theorem resumes_line (r : Record) : Resumes r.line.toList := Or.inr r.exists_toList_line

/-- What is left of a line that is cut off is no record, whether nothing stands behind it or the
line of another record. -/
theorem ofLine?_cut (hz : Resumes z) (hq : Cut r.line.toList q) (hne : q ≠ []) :
    ofLine? (String.ofList (q ++ z)) = none := by
  rw [toList_line] at hq
  obtain ⟨d, hfail, -⟩ : Fails z (reader (q ++ z)) :=
    fails_record hz (fills_keys hz r) Layout.isBlank_compact blanks_nil hq hne
  rw [ofLine?, readWhole, String.toList_ofList, hfail]
  rfl

/-- Neither are two lines in one. -/
theorem ofLine?_line_append (r next : Record) : ofLine? (r.line ++ next.line) = none := by
  obtain ⟨more, hmore⟩ := next.exists_toList_line
  rw [ofLine?, readWhole, String.toList_append, reader_line, hmore]
  simp [bind, Except.bind, skipBlanks, isBlank, throw, throwThe, MonadExceptOf.throw,
    Except.toOption]

/-- **A line that begins with what is left of another is no record.** -/
theorem ofLine?_torn_append {torn : String} (ht : torn.toList <+: r.line.toList) (hne : torn ≠ "")
    (next : Record) : ofLine? (torn ++ next.line) = none := by
  obtain ⟨off, hoff⟩ := ht
  by_cases hnil : off = []
  · rw [hnil, List.append_nil] at hoff
    rw [String.toList_inj.1 hoff]
    exact ofLine?_line_append r next
  · have hcut := ofLine?_cut next.resumes_line ⟨off, hnil, hoff.symm⟩
      (fun h => hne (String.toList_eq_nil_iff.1 h))
    rwa [String.ofList_append, String.ofList_toList, String.ofList_toList] at hcut

/-- There is no line break in a line, and no other control character. -/
theorem printable_line (r : Record) : Printable r.line.toList := by
  rw [toList_line]
  refine printable_enclosed (by decide) (by decide) (List.forall_mem_map.2 fun f hf => ?_)
  refine printable_field ?_
  simp only [keys, List.mem_cons, List.not_mem_nil, or_false] at hf
  rcases hf with rfl | rfl | rfl | rfl
  · exact printable_quoted _
  · exact printable_quoted _
  · exact printable_quoted _
  · refine printable_enclosed (by decide) (by decide) (List.forall_mem_map.2 fun w hw => ?_)
    obtain ⟨s, -, rfl⟩ := List.mem_map.1 hw
    exact printable_quoted _

theorem lineFeed_not_mem_line (r : Record) : '\n' ∉ r.line.toList :=
  fun h => r.printable_line _ h (by decide)

theorem return_not_mem_line (r : Record) : '\r' ∉ r.line.toList :=
  fun h => r.printable_line _ h (by decide)

theorem line_ne_empty (r : Record) : r.line ≠ "" := by
  intro h
  obtain ⟨more, hmore⟩ := r.exists_toList_line
  rw [h] at hmore
  cases hmore

theorem isBlankLine_line (r : Record) : Journal.isBlankLine r.line = false := by
  obtain ⟨more, hmore⟩ := r.exists_toList_line
  have hbrace : Text.isBlank '\x7b' = false := by decide
  rw [Journal.isBlankLine, decide_eq_false_iff_not, Text.trim, hmore]
  intro h
  have hnil := congrArg String.toList h
  rw [String.toList_ofList, Text.trimChars, Text.trimFront,
    List.dropWhile_cons_of_neg (by simp [hbrace]), Text.trimBack, String.toList_empty,
    List.reverse_eq_nil_iff, Text.trimFront, List.dropWhile_eq_nil_iff] at hnil
  have hblank := hnil '\x7b' (by simp)
  rw [hbrace] at hblank
  cases hblank

end Record

namespace Journal

/-! ## The records of a text -/

/-- A text that ends its last line is read by itself. -/
theorem recordsOf_append (h : Text.EndsLine text.toList) (more : String) :
    recordsOf (text ++ more) = recordsOf text ++ recordsOf more := by
  rw [recordsOf, Text.lines_append h, List.filter_append, List.filterMap_append]
  rfl

/-- Lines that are no records are passed over. -/
theorem recordsOf_eq_nil (h : ∀ line ∈ Text.lines text, Record.ofLine? line = none) :
    recordsOf text = [] := by
  rw [recordsOf, List.filterMap_eq_nil_iff]
  exact fun line hl => h line (List.mem_of_mem_filter hl)

theorem recordsOf_line (r : Record) : recordsOf (r.line ++ "\n") = [r] := by
  rw [recordsOf, Text.lines_line r.lineFeed_not_mem_line, Text.dropReturn_of_not_mem
    r.return_not_mem_line, String.ofList_toList]
  simp [r.isBlankLine_line, r.ofLine?_line]

/-- The last line may lack its end. -/
theorem recordsOf_line_unended (r : Record) : recordsOf r.line = [r] := by
  rw [recordsOf, Text.lines_of_not_mem r.lineFeed_not_mem_line r.line_ne_empty]
  simp [r.isBlankLine_line, r.ofLine?_line]

/-- The text that is written for records. -/
def textOf (rs : List Record) : String := String.join (rs.map fun r => r.line ++ "\n")

theorem textOf_cons (r : Record) (rs : List Record) :
    textOf (r :: rs) = r.line ++ "\n" ++ textOf rs := by
  rw [textOf, List.map_cons, String.join_cons]
  rfl

theorem endsLine_textOf (rs : List Record) : Text.EndsLine (textOf rs).toList := by
  have h := Text.endsLine_join (rs.map Record.line)
  rwa [List.map_map] at h

/-- **What is written for records is read back.** -/
theorem recordsOf_textOf (rs : List Record) : recordsOf (textOf rs) = rs := by
  induction rs with
  | nil => rfl
  | cons r rs ih =>
    rw [textOf_cons, recordsOf_append (Text.endsLine_append _ rfl), recordsOf_line, ih]
    rfl

/-- A text of lines goes on with a line, if it goes on. -/
theorem textOf_cases (rs : List Record) :
    textOf rs = "" ∨ ∃ more, (textOf rs).toList = '\x7b' :: more := by
  cases rs with
  | nil => exact Or.inl rfl
  | cons r rs =>
    obtain ⟨more, hmore⟩ := r.exists_toList_line
    rw [textOf_cons, String.toList_append, String.toList_append, hmore]
    exact Or.inr ⟨_, rfl⟩

/-- **What is left of a line is lost with the line written behind it**; it is read if it is the
whole line and nothing is written behind it. -/
theorem recordsOf_torn {torn : String} (ht : torn.toList <+: r.line.toList) (hne : torn ≠ "")
    (later : List Record) : recordsOf (torn ++ textOf later) =
      if torn = r.line ∧ later = [] then [r] else later.tail := by
  have hprint : Printable torn.toList := fun c hc => r.printable_line c (ht.subset hc)
  cases later with
  | nil =>
    rw [show torn ++ textOf [] = torn from String.append_empty]
    by_cases heq : torn = r.line
    · rw [heq, recordsOf_line_unended]
      simp
    · obtain ⟨off, hoff⟩ := ht
      have hcut : Cut r.line.toList torn.toList := by
        refine ⟨off, ?_, hoff.symm⟩
        rintro rfl
        rw [List.append_nil] at hoff
        exact heq (String.toList_inj.1 hoff)
      have hnone := Record.ofLine?_cut (Or.inl rfl) hcut fun h => hne (String.toList_eq_nil_iff.1 h)
      rw [List.append_nil, String.ofList_toList] at hnone
      rw [if_neg (by simp [heq]), recordsOf_eq_nil]
      · rfl
      · intro line hl
        rw [Text.lines_of_not_mem (fun h => hprint _ h (by decide)) hne, List.mem_singleton] at hl
        rwa [hl]
  | cons next rest =>
    have hjoined : Printable (torn ++ next.line).toList := by
      intro c hc
      rw [String.toList_append] at hc
      exact (List.mem_append.1 hc).elim (hprint c) (next.printable_line c)
    have hglued : recordsOf (torn ++ next.line ++ "\n") = [] := by
      refine recordsOf_eq_nil fun line hl => ?_
      rw [Text.lines_line fun h => hjoined _ h (by decide), Text.dropReturn_of_not_mem
        fun h => hjoined _ h (by decide), List.mem_singleton, String.ofList_toList] at hl
      rw [hl]
      exact Record.ofLine?_torn_append ht hne next
    rw [textOf_cons, ← String.append_assoc, ← String.append_assoc,
      recordsOf_append (Text.endsLine_append _ rfl), hglued, recordsOf_textOf]
    simp

end Journal

end NearDup
