import NearDup.Proofs.Json.Values

/-!
# Written records are read back

A record is written as an object, key by key, and each key is looked up among the fields. The
record is read back when each of its fields is. When its end is cut off, the reader gets to the
field where something is missing, and neither a key nor a value goes on there with another record.

* `Fills` — keys and values are read one after the other, each into its place
* `record_object` — a record that is written as an object is read back
* `fails_record` — a record that is cut off is not read
-/

namespace NearDup.Json

variable {α β π : Type} {bs cs q more z : List Char} {layout : Layout} {depth fuel : Nat}
  {first : Bool} {fields : List (Member π)} {finish : π → Option α} {p p' : π} {a : α}
  {m : Member π} {f : String × Writer} {fs : List (String × Writer)}

/-- Keys and values are read one after the other, each into a field that is still free. -/
inductive Fills (z : List Char) (fields : List (Member π)) : π → List (String × Writer) → π → Prop
  | nil (p : π) : Fills z fields p [] p
  | cons {p p₁ p' : π} {f : String × Writer} {fs : List (String × Writer)} {m : Member π}
      (found : fields.find? (·.name.toList = f.1.toList) = some m) (free : m.isFilled p = false)
      (reads : Reads z (m.fill p) f.2 p₁) (rest : Fills z fields p₁ fs p') :
      Fills z fields p (f :: fs) p'

section Places

variable {name : String} {get : π → Option β} {set : π → β → π} {reader : Reader β} {w : Writer}
  {b : β}

theorem isFilled_make (free : get p = none) :
    (Member.make name get set reader).isFilled p = false := by simp [Member.make, free]

/-- A field is read into its place. -/
theorem Reads.make (h : Reads z reader w b) (p : π) :
    Reads z ((Member.make name get set reader).fill p) w (set p b) := by
  refine ⟨h.begins, ?_, ?_⟩
  · intro layout depth bs more hl hb hmore
    simp [Member.make, h.whole layout depth bs more hl hb hmore, bind, Except.bind, pure,
      Except.pure]
  · intro layout depth bs q hl hb hq
    exact (h.cut layout depth bs q hl hb hq).map (set p)

theorem Fills.make
    (found : fields.find? (·.name.toList = name.toList) = some (.make name get set reader))
    (free : get p = none) (h : Reads z reader w b) (rest : Fills z fields (set p b) fs p') :
    Fills z fields p ((name, w) :: fs) p' :=
  .cons found (isFilled_make free) (h.make p) rest

end Places

theorem nextKey_append (first : Bool) (hb : Blanks bs) (cs : List Char) :
    Reader.nextKey first (bs ++ cs) = Reader.nextKey first cs := by
  rw [Reader.nextKey, nextChar_append hb, Reader.nextKey]
  cases first with
  | true => simp [mark_append _ hb]
  | false => rfl

theorem nextKey_brace (first : Bool) (rest : List Char) :
    Reader.nextKey first ('\x7d' :: rest) = .ok none := by
  rw [Reader.nextKey, nextChar_cons (by decide)]
  rfl

theorem nextKey_quote (hb : Blanks bs) (rest : List Char) :
    Reader.nextKey first (separator first ++ (bs ++ '"' :: rest)) = .ok (some rest) := by
  cases first with
  | true =>
    rw [separator, if_pos rfl, List.nil_append, nextKey_append _ hb, Reader.nextKey,
      nextChar_cons (by decide)]
    simp [mark_cons (show isBlank '"' = false by decide), bind, Except.bind, pure, Except.pure]
  | false =>
    rw [separator, if_neg Bool.false_ne_true, List.singleton_append, Reader.nextKey,
      nextChar_cons (by decide)]
    simp [mark_append _ hb, mark_cons (show isBlank '"' = false by decide), bind, Except.bind, pure,
      Except.pure]

/-- A colon and the value of a field that is still free. -/
theorem keyedValue_colon (found : fields.find? (·.name.toList = f.1.toList) = some m)
    (free : m.isFilled p = false) (rest : List Char) :
    Reader.keyedValue fields p f.1.toList (':' :: rest) = m.fill p rest := by
  unfold Reader.keyedValue
  simp [found, free, mark_cons (show isBlank ':' = false by decide), bind, Except.bind]

/-- A key is read, then its value, and then the fields behind it. -/
theorem keyed_quote (hb : Blanks bs) (cs : List Char) :
    Reader.keyed fields finish (fuel + 1) first p (separator first ++ (bs ++ '"' :: cs)) =
      readString true .plain cs >>= fun r => Reader.keyedValue fields p r.1 r.2 >>= fun r =>
        Reader.keyed fields finish fuel false r.1 r.2 := by
  rw [Reader.keyed, nextKey_quote hb]
  rfl

theorem field_append (layout : Layout) (depth : Nat) (f : String × Writer) (rest : List Char) :
    Writer.field layout depth f ++ rest = '"' :: (f.1.toList.flatMap escape ++
      '"' :: ':' :: (layout.afterColon ++ (f.2 layout depth ++ rest))) := by
  simp [Writer.field, quoted]

theorem printable_field (h : Printable (f.2 .compact depth)) :
    Printable (Writer.field .compact depth f) := by
  intro c hmem
  rcases List.mem_append.1 hmem with hc | hc
  · exact printable_quoted _ c hc
  · rcases List.mem_cons.1 hc with rfl | hc
    · decide
    · exact h c hc

/-- The reader of the fields comes to one of them and goes on behind it. -/
theorem keyed_value (found : fields.find? (·.name.toList = f.1.toList) = some m)
    (free : m.isFilled p = false) (hb : Blanks bs) :
    Reader.keyed fields finish (fuel + 1) first p
      (separator first ++ (bs ++ (Writer.field layout depth f ++ more))) =
        m.fill p (layout.afterColon ++ (f.2 layout depth ++ more)) >>= fun r =>
          Reader.keyed fields finish fuel false r.1 r.2 := by
  rw [field_append, keyed_quote hb, readString_quoted]
  simp only [bind, Except.bind, keyedValue_colon found free]

/-- One field is read, and then those behind it. -/
theorem keyed_field (found : fields.find? (·.name.toList = f.1.toList) = some m)
    (free : m.isFilled p = false) (reads : Reads z (m.fill p) f.2 p') (hl : layout.IsBlank)
    (hb : Blanks bs) (hmore : Apart more) :
    Reader.keyed fields finish (fuel + 1) first p
      (separator first ++ (bs ++ (Writer.field layout depth f ++ more))) =
        Reader.keyed fields finish fuel false p' more := by
  rw [keyed_value found free hb, reads.whole layout depth _ more hl hl.afterColon hmore]
  rfl

/-- The fields behind the first one are read back. -/
theorem keyed_behind (h : Fills z fields p fs p') (hfinish : finish p' = some a)
    (hl : layout.IsBlank) (hf : fs.length < fuel) (rest : List Char) :
    Reader.keyed fields finish fuel false p
      (behind layout depth '\x7d' (fs.map (Writer.field layout (depth + 1))) ++ rest) =
        .ok (a, rest) := by
  induction h generalizing fuel with
  | nil p =>
    obtain ⟨k, rfl⟩ := Nat.exists_eq_add_one.2 hf
    have hb := hl.lineBreak depth
    have hbehind : behind layout depth '\x7d' [] ++ rest =
        layout.lineBreak depth ++ '\x7d' :: rest := by simp [behind]
    rw [List.map_nil, hbehind, Reader.keyed, nextKey_append _ hb, nextKey_brace, mark_append _ hb,
      mark_cons (by decide), Reader.finished, hfinish]
    rfl
  | cons found free reads _ ih =>
    obtain ⟨k, rfl⟩ := Nat.exists_eq_add_one.2 (Nat.zero_lt_of_lt hf)
    rw [List.map_cons, behind_cons, List.append_assoc, List.append_assoc, List.append_assoc,
      keyed_field found free reads hl (hl.lineBreak _) (apart_behind_append hl ⟨rfl, rfl⟩ _ rest),
      ih hfinish (by simpa using hf)]

/-- No further key follows where a record stands. -/
theorem fails_nextKey (hz : Resumes z) (first : Bool) (hb : Blanks bs) :
    Fails z (Reader.nextKey first (bs ++ z)) := by
  rw [nextKey_append _ hb, Reader.nextKey]
  rcases nextChar_resumes hz with ⟨rfl, hnext⟩ | ⟨more, rfl, hnext⟩
  · rw [hnext]
    exact ⟨_, rfl, fun _ => rfl⟩
  · rw [hnext]
    cases first with
    | true =>
      obtain ⟨d, hmark, hd⟩ := fails_mark hz (c := '"') (by decide)
      simp only [bind, Except.bind, Char.reduceEq, if_false, if_true, hmark]
      exact ⟨_, rfl, by simp⟩
    | false => exact ⟨_, rfl, by simp⟩

theorem fails_nextKey_separator (hz : Resumes z) (hb : Blanks bs) :
    Fails z (Reader.nextKey first (separator first ++ (bs ++ z))) := by
  cases first with
  | true => exact fails_nextKey hz true hb
  | false =>
    rw [separator, if_neg Bool.false_ne_true, List.singleton_append, Reader.nextKey,
      nextChar_cons (by decide)]
    obtain ⟨d, hmark, hd⟩ := fails_mark hz (c := '"') (by decide)
    simp only [bind, Except.bind, Char.reduceEq, Bool.false_eq_true, if_false, ne_eq,
      not_true_eq_false, mark_append _ hb, hmark]
    exact ⟨_, rfl, hd⟩

/-- Nor behind a letter. -/
theorem nextKey_letter : Reader.nextKey false ('t' :: more) = .error .malformed := by
  rw [Reader.nextKey, nextChar_cons (by decide)]
  rfl

theorem Fails.keyed (h : Fails z (Reader.nextKey first cs)) :
    Fails z (Reader.keyed fields finish fuel first p cs) := by
  cases fuel with
  | zero => exact ⟨_, rfl, fun _ => rfl⟩
  | succ k =>
    rw [Reader.keyed]
    exact h.bind _

/-- No value of a key stands behind a letter. -/
theorem exists_error_keyedValue_letter (fields : List (Member π)) (p : π) (key more : List Char) :
    ∃ d, Reader.keyedValue fields p key ('t' :: more) = .error d := by
  unfold Reader.keyedValue
  rw [mark_letter (by decide)]
  split
  · split
    · exact ⟨_, rfl⟩
    · exact ⟨_, rfl⟩
  · exact ⟨_, rfl⟩

/-- A value that is cut off behind its key. -/
theorem broken_keyedValue (hz : Resumes z)
    (found : fields.find? (·.name.toList = f.1.toList) = some m) (free : m.isFilled p = false)
    (reads : Reads z (m.fill p) f.2 p') (hl : layout.IsBlank)
    (hq : Cut (':' :: (layout.afterColon ++ f.2 layout depth)) q) :
    Broken z (Reader.keyedValue fields p f.1.toList (q ++ z)) := by
  rcases cut_cons.1 hq with rfl | ⟨q, rfl, hcut⟩
  · have hmark := fails_mark hz (c := ':') (by decide)
    have hvalue : Reader.keyedValue fields p f.1.toList z =
        mark ':' z >>= fun rest => m.fill p rest := by
      unfold Reader.keyedValue
      simp [found, free]
    rw [List.nil_append, hvalue]
    exact .lost (hmark.bind _).lost
  · obtain ⟨bs', q, rfl, hb', hcut⟩ := reads.cut_blanks hl.afterColon hcut
    rw [List.cons_append, keyedValue_colon found free, List.append_assoc]
    exact reads.cut layout depth bs' q hl hb' hcut

theorem fails_keyed_field (hz : Resumes z)
    (found : fields.find? (·.name.toList = f.1.toList) = some m) (free : m.isFilled p = false)
    (reads : Reads z (m.fill p) f.2 p') (hl : layout.IsBlank) (hb : Blanks bs)
    (hq : Cut (separator first ++ (bs ++ Writer.field layout depth f)) q) :
    Fails z (Reader.keyed fields finish fuel first p (q ++ z)) := by
  have hfield := field_append layout depth f []
  simp only [List.append_nil] at hfield
  rw [hfield] at hq
  rcases cut_append hq with hsep | ⟨part, rfl, hpart⟩
  · obtain ⟨rfl, rfl⟩ := cut_separator hsep
    exact (fails_nextKey hz false blanks_nil).keyed
  · rw [List.append_assoc]
    rcases cut_append hpart with hblank | ⟨key, rfl, hkey⟩
    · exact (fails_nextKey_separator hz fun b hm => hb b (hblank.mem hm)).keyed
    rcases cut_cons.1 hkey with rfl | ⟨key, rfl, hbody⟩
    · rw [List.append_nil]
      exact (fails_nextKey_separator hz hb).keyed
    cases fuel with
    | zero => exact ⟨_, rfl, fun _ => rfl⟩
    | succ k =>
      rw [List.append_assoc, List.cons_append, keyed_quote hb]
      rw [List.append_cons] at hbody
      rcases cut_append hbody with hcut | ⟨value, rfl, hvalue⟩
      · -- within the key
        refine (lost_quoted hz hcut).bind fun a more hne => Fails.bind ?_ _
        obtain ⟨d, hd⟩ := exists_error_keyedValue_letter fields p a more
        exact ⟨d, hd, fun hnil => absurd hnil hne⟩
      · have hread := readString_quoted true f.1.toList (value ++ z)
        rw [List.append_assoc, List.append_assoc, List.singleton_append, hread]
        refine (broken_keyedValue hz found free reads hl hvalue).bind (fun p more hne => ?_)
          fun p _ => Fails.keyed ⟨_, rfl, fun _ => rfl⟩
        refine Fails.keyed ?_
        rw [nextKey_letter]
        exact ⟨_, rfl, fun hnil => absurd hnil hne⟩

/-- Fields behind the first one, cut off. -/
theorem fails_keyed_behind (hz : Resumes z) (h : Fills z fields p fs p') (hl : layout.IsBlank)
    (hq : Cut (behind layout depth '\x7d' (fs.map (Writer.field layout (depth + 1)))) q) :
    Fails z (Reader.keyed fields finish fuel false p (q ++ z)) := by
  induction h generalizing fuel q with
  | nil p => exact (fails_nextKey hz false (blanks_of_cut_bracket (hl.lineBreak depth) hq)).keyed
  | cons found free reads _ ih =>
    rw [List.map_cons, behind_cons, ← List.append_assoc, ← List.append_assoc] at hq
    rcases cut_append hq with hcut | ⟨q, rfl, hcut⟩
    · rw [List.append_assoc] at hcut
      exact fails_keyed_field hz found free reads hl (hl.lineBreak _) hcut
    · cases fuel with
      | zero => exact ⟨_, rfl, fun _ => rfl⟩
      | succ k =>
        simp only [List.append_assoc]
        rw [keyed_field found free reads hl (hl.lineBreak _)
          (apart_cut hz hcut (apart_behind hl ⟨rfl, rfl⟩ _))]
        exact ih hcut

theorem record_brace (empty : π) (hb : Blanks bs) (rest : List Char) :
    Reader.record fields empty finish (bs ++ '\x7b' :: rest) =
      Reader.keyed fields finish (rest.length + 1) true empty rest := by
  rw [Reader.record, skipBlanks_append hb, skipBlanks_cons (by decide)]
  rfl

theorem object_cons (f : String × Writer) (fs : List (String × Writer)) :
    Writer.object (f :: fs) layout depth =
      '\x7b' :: (separator true ++ (layout.lineBreak (depth + 1) ++
        (Writer.field layout (depth + 1) f ++
          behind layout depth '\x7d' (fs.map (Writer.field layout (depth + 1)))))) := by
  rw [Writer.object, List.map_cons, enclosed_cons]

/-- **A record that is written as an object is read back**, whatever stands behind it. -/
theorem record_object (h : Fills z fields p fs p') (hfinish : finish p' = some a)
    (hl : layout.IsBlank) (hb : Blanks bs) (rest : List Char) :
    Reader.record fields p finish (bs ++ (Writer.object fs layout depth ++ rest)) =
      .ok (a, rest) := by
  cases h with
  | nil =>
    have hempty : Writer.object [] layout depth ++ rest = '\x7b' :: '\x7d' :: rest := rfl
    rw [hempty, record_brace _ hb, Reader.keyed, nextKey_brace, Reader.finished, hfinish,
      mark_cons (by decide)]
    rfl
  | @cons _ p₁ _ f fs m found free reads further =>
    rw [object_cons, List.cons_append, record_brace _ hb]
    simp only [List.append_assoc]
    rw [keyed_field found free reads hl (hl.lineBreak _)
      (apart_behind_append hl ⟨rfl, rfl⟩ _ rest)]
    exact keyed_behind further hfinish hl (length_lt_length_parts ..) rest

/-- **A record that is cut off behind its beginning is not read**, whether nothing stands in place
of its end or another record. -/
theorem fails_record (hz : Resumes z) (h : Fills z fields p fs p') (hl : layout.IsBlank)
    (hb : Blanks bs) (hq : Cut (Writer.object fs layout depth) q) (hne : q ≠ []) :
    Fails z (Reader.record fields p finish (bs ++ (q ++ z))) := by
  cases h with
  | nil =>
    rcases cut_cons.1 hq with rfl | ⟨q, rfl, hcut⟩
    · exact absurd rfl hne
    · obtain rfl := hcut.eq_nil
      rw [List.cons_append, record_brace _ hb]
      exact (fails_nextKey hz true blanks_nil).keyed
  | cons found free reads further =>
    rw [object_cons] at hq
    rcases cut_cons.1 hq with rfl | ⟨q, rfl, hcut⟩
    · exact absurd rfl hne
    · rw [List.cons_append, record_brace _ hb]
      rw [← List.append_assoc, ← List.append_assoc] at hcut
      rcases cut_append hcut with hpart | ⟨q, rfl, hbehind⟩
      · rw [List.append_assoc] at hpart
        exact fails_keyed_field hz found free reads hl (hl.lineBreak _) hpart
      · simp only [List.append_assoc]
        rw [keyed_field found free reads hl (hl.lineBreak _)
          (apart_cut hz hbehind (apart_behind hl ⟨rfl, rfl⟩ _))]
        exact fails_keyed_behind hz further hl hbehind

/-- **A record inside of another value is read back.** -/
theorem Reads.record (h : Fills [] fields p fs p') (hfinish : finish p' = some a) :
    Reads [] (Reader.record fields p finish) (Writer.object fs) a where
  begins _ _ := by
    cases fs with
    | nil => exact ⟨'\x7b', _, rfl, by decide, by decide⟩
    | cons f fs =>
      rw [object_cons]
      exact ⟨'\x7b', _, rfl, by decide, by decide⟩
  whole _ _ _ rest hl hb _ := record_object h hfinish hl hb rest
  cut _ _ bs q hl hb hq := by
    by_cases hne : q = []
    · rw [hne, Reader.record, skipBlanks_append hb]
      exact .lost (.failed fun _ => rfl)
    · exact .lost (fails_record (Or.inl rfl) h hl hb hq hne).lost

end NearDup.Json
