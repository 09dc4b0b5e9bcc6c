import NearDup.Json.Record
import NearDup.Proofs.Json.Strings

/-!
# Written values are read back

An array is read from left to right, each item by its own reader, so the whole is read back when its
items are. The same goes for an array that is cut off: the reader gets to the item where the end is
missing, and there it fails or is astray, or takes what is left for a whole item; then the array
fails, since neither a letter nor the end of the text stands between two items.

* `Apart` — nothing behind a value belongs to it, as a digit behind a number would
* `Reads` — a reader takes a written value off the front of a text, and is lost where it is cut off
* `Reads.text`, `Reads.oneOf` — strings, and words that stand for something
* `Reads.array` — an array is read back when its items are
-/

namespace NearDup.Json

variable {α β π : Type} {c : Char} {bs cs q rest more z : List Char} {layout : Layout}
  {depth fuel : Nat} {first : Bool}

/-! ## Blanks -/

def Blanks (bs : List Char) : Prop := ∀ b ∈ bs, isBlank b = true

/-- A layout puts nothing but blanks between the parts of a value. -/
structure Layout.IsBlank (layout : Layout) : Prop where
  lineBreak : ∀ depth, Blanks (layout.lineBreak depth)
  afterColon : Blanks layout.afterColon

theorem Layout.isBlank_compact : Layout.compact.IsBlank := ⟨fun _ => by simp [compact, Blanks], by
  simp [compact, Blanks]⟩

theorem Layout.isBlank_pretty : Layout.pretty.IsBlank where
  lineBreak depth b hb := by
    rcases List.mem_cons.1 hb with rfl | hmem
    · rfl
    · rw [List.eq_of_mem_replicate hmem]
      rfl
  afterColon b hb := by
    rw [List.mem_singleton.1 hb]
    rfl

theorem isBlank_cases (h : isBlank c = true) : c = ' ' ∨ c = '\n' ∨ c = '\t' ∨ c = '\r' := by
  simpa [isBlank, or_assoc] using h

theorem blanks_nil : Blanks [] := by simp [Blanks]

theorem skipBlanks_append (hb : Blanks bs) (cs : List Char) :
    skipBlanks (bs ++ cs) = skipBlanks cs := by
  rw [skipBlanks, List.dropWhile_append_of_pos hb]
  rfl

theorem skipBlanks_cons (hc : isBlank c = false) (cs : List Char) :
    skipBlanks (c :: cs) = c :: cs := by
  simp [skipBlanks, hc]

theorem nextChar_append (hb : Blanks bs) (cs : List Char) :
    nextChar (bs ++ cs) = nextChar cs := by
  rw [nextChar, skipBlanks_append hb, nextChar]

theorem nextChar_cons (hc : isBlank c = false) (rest : List Char) :
    nextChar (c :: rest) = .ok (c, rest) := by
  rw [nextChar, skipBlanks_cons hc]
  rfl

theorem mark_append (c : Char) (hb : Blanks bs) (cs : List Char) :
    mark c (bs ++ cs) = mark c cs := by
  rw [mark, nextChar_append hb, mark]

theorem mark_cons (hc : isBlank c = false) (rest : List Char) : mark c (c :: rest) = .ok rest := by
  rw [mark, nextChar_cons hc]
  simp [bind, Except.bind, pure, Except.pure]

/-! ## What stands behind a value -/

/-- A text goes on with nothing that a number could go on with. -/
structure Apart (rest : List Char) : Prop where
  digit : startsWithDigit rest = false
  double : continuesAsDouble rest = false

theorem apart_nil : Apart [] := ⟨rfl, rfl⟩

/-- Only the first character counts. -/
theorem Apart.cons (h : Apart (c :: cs)) (rest : List Char) : Apart (c :: rest) :=
  ⟨h.digit, h.double⟩

theorem Apart.append (h : Apart cs) (hne : cs ≠ []) (rest : List Char) : Apart (cs ++ rest) := by
  cases cs with
  | nil => exact absurd rfl hne
  | cons c cs => exact h.cons _

theorem apart_blanks (hb : Blanks bs) (hc : Apart [c]) : Apart (bs ++ [c]) := by
  cases bs with
  | nil => exact hc
  | cons b bs =>
    rcases isBlank_cases (hb b List.mem_cons_self) with rfl | rfl | rfl | rfl
    all_goals exact ⟨rfl, rfl⟩

/-! ## Cut texts -/

/-- Where the end is cut off and nothing or a record stands in its place, the text goes on as before
or with that. -/
theorem apart_cut {text : List Char} (hz : Resumes z) (hq : Cut text q) (h : Apart text) :
    Apart (q ++ z) := by
  cases q with
  | nil =>
    rcases hz with rfl | ⟨more, rfl⟩
    · exact apart_nil
    · exact ⟨rfl, rfl⟩
  | cons c q =>
    obtain ⟨off, -, rfl⟩ := hq
    exact h.cons _

/-- An error, which says that the text is cut short if nothing stands in place of its end. -/
def Fails (z : List Char) (result : Except Defect α) : Prop :=
  ∃ d, result = .error d ∧ (z = [] → d = .cutShort)

theorem Fails.lost {result : Except Defect (α × List Char)} (h : Fails z result) :
    Lost z result := by
  obtain ⟨d, rfl, hd⟩ := h
  exact .failed hd

theorem Fails.bind {x : Except Defect α} (h : Fails z x) (f : α → Except Defect β) :
    Fails z (x >>= f) := by
  obtain ⟨d, rfl, hd⟩ := h
  exact ⟨d, rfl, hd⟩

/-- What goes on behind a part that is lost, and fails where it is astray, fails. -/
theorem Lost.bind {x : Except Defect (α × List Char)} (h : Lost z x)
    {f : α × List Char → Except Defect β}
    (hf : ∀ a more, z ≠ [] → Fails z (f (a, 't' :: more))) : Fails z (x >>= f) := by
  cases h with
  | failed h => exact ⟨_, rfl, h⟩
  | astray h => exact hf _ _ h

theorem Lost.map {x : Except Defect (α × List Char)} (h : Lost z x) (f : α → β) :
    Lost z (x >>= fun r => pure (f r.1, r.2)) := by
  cases h with
  | failed h => exact .failed h
  | astray h => exact .astray h

/-- What comes of reading what is left of a value: the reader is lost, or it takes all there is, if
nothing stands behind it, for a value of its own. -/
inductive Broken (z : List Char) : Except Defect (α × List Char) → Prop
  | lost {result : Except Defect (α × List Char)} (h : Lost z result) : Broken z result
  | ended {a : α} (h : z = []) : Broken z (.ok (a, []))

/-- What goes on behind a broken part fails, if it fails where the reader is astray and at the end
of the text. -/
theorem Broken.bind {x : Except Defect (α × List Char)} (h : Broken z x)
    {f : α × List Char → Except Defect β}
    (hf : ∀ a more, z ≠ [] → Fails z (f (a, 't' :: more)))
    (hend : ∀ a, z = [] → Fails z (f (a, []))) : Fails z (x >>= f) := by
  cases h with
  | lost h => exact h.bind hf
  | ended h => exact hend _ h

theorem Broken.map {x : Except Defect (α × List Char)} (h : Broken z x) (f : α → β) :
    Broken z (x >>= fun r => pure (f r.1, r.2)) := by
  cases h with
  | lost h => exact .lost (h.map f)
  | ended h => exact .ended h

/-- Where the first character of a record stands, nothing or a brace is next. -/
theorem nextChar_resumes (hz : Resumes z) :
    (z = [] ∧ nextChar z = .error .cutShort) ∨
      ∃ more, z = '\x7b' :: more ∧ nextChar z = .ok ('\x7b', more) := by
  rcases hz with rfl | ⟨more, rfl⟩
  · exact Or.inl ⟨rfl, rfl⟩
  · exact Or.inr ⟨_, rfl, nextChar_cons (by decide) _⟩

/-- No mark but a brace comes next there. -/
theorem fails_mark (hz : Resumes z) (hc : c ≠ '\x7b') : Fails z (mark c z) := by
  unfold mark
  rcases nextChar_resumes hz with ⟨rfl, h⟩ | ⟨more, rfl, h⟩
  · rw [h]
    exact ⟨_, rfl, fun _ => rfl⟩
  · rw [h]
    simp only [bind, Except.bind]
    rw [if_neg hc.symm]
    exact ⟨_, rfl, by simp⟩

theorem mark_letter (hc : c ≠ 't') : mark c ('t' :: more) = .error .malformed := by
  rw [mark, nextChar_cons (by decide)]
  simp [bind, Except.bind, hc.symm, throw, throwThe, MonadExceptOf.throw]

/-- A reader takes a written value off the front of a text, whatever stands behind it and does not
belong to it. When the end of the value is cut off and `z` stands in its place, the reader is lost,
or takes what is left for another value. -/
structure Reads (z : List Char) (reader : Reader α) (w : Writer) (a : α) : Prop where
  begins : ∀ layout depth, ∃ c more, w layout depth = c :: more ∧ isBlank c = false ∧ c ≠ ']'
  whole : ∀ layout depth bs rest, layout.IsBlank → Blanks bs → Apart rest →
    reader (bs ++ (w layout depth ++ rest)) = .ok (a, rest)
  cut : ∀ layout depth bs q, layout.IsBlank → Blanks bs → Cut (w layout depth) q →
    Broken z (reader (bs ++ (q ++ z)))

/-! ## Words -/

/-- No string begins where a record does. -/
theorem fails_text (hz : Resumes z) (hb : Blanks bs) : Fails z (Reader.text (bs ++ z)) := by
  unfold Reader.text
  rw [skipBlanks_append hb]
  rcases hz with rfl | ⟨more, rfl⟩
  · exact ⟨_, rfl, fun _ => rfl⟩
  · exact ⟨_, rfl, by simp⟩

theorem text_quoted (hb : Blanks bs) (cs rest : List Char) :
    Reader.text (bs ++ (quoted cs ++ rest)) = .ok (String.ofList cs, rest) := by
  unfold Reader.text
  rw [skipBlanks_append hb, quoted, List.cons_append, skipBlanks_cons (by decide)]
  simp [readString_quoted, bind, Except.bind, pure, Except.pure]

theorem lost_text (hz : Resumes z) (hb : Blanks bs) (hq : Cut (quoted cs) q) :
    Lost z (Reader.text (bs ++ (q ++ z))) := by
  rcases cut_cons.1 hq with rfl | ⟨q, rfl, hcut⟩
  · exact (fails_text hz hb).lost
  · unfold Reader.text
    rw [skipBlanks_append hb, List.cons_append, skipBlanks_cons (by decide)]
    exact (lost_quoted hz hcut).map String.ofList

theorem Reads.text (hz : Resumes z) (s : String) : Reads z Reader.text (Writer.text s) s where
  begins _ _ := ⟨'"', _, rfl, by decide, by decide⟩
  whole _ _ _ rest _ hb _ := by rw [Writer.text, text_quoted hb, String.ofList_toList]
  cut _ _ _ _ _ hb hq := .lost (lost_text hz hb hq)

theorem oneOf_quote (names : List (String × α)) (hb : Blanks bs) (rest : List Char) :
    Reader.oneOf names (bs ++ '"' :: rest) = Reader.text ('"' :: rest) >>= fun r =>
      Reader.valueOf names r.1 >>= fun a => .ok (a, r.2) := by
  rw [Reader.oneOf, skipBlanks_append hb, skipBlanks_cons (by decide)]
  rfl

/-- A word is read as what it stands for. A record is not taken for an object with such a word as
its key, since none begins with the letter of its first key. -/
theorem Reads.oneOf {names : List (String × α)} {name : String} {a : α} (hz : Resumes z)
    (hname : names.lookup name = some a)
    (hother : ∀ rest, names.lookup (String.ofList ('t' :: rest)) = none) :
    Reads z (Reader.oneOf names) (Writer.text name) a where
  begins := (Reads.text hz name).begins
  whole layout depth bs rest _ hb _ := by
    have htext := text_quoted blanks_nil name.toList rest
    rw [List.nil_append, quoted, List.cons_append] at htext
    rw [Writer.text, quoted, List.cons_append, oneOf_quote _ hb, htext]
    simp [Reader.valueOf, hname, bind, Except.bind, pure, Except.pure]
  cut layout depth bs q _ hb hq := by
    refine .lost ?_
    rcases cut_cons.1 hq with rfl | ⟨q, rfl, -⟩
    · rw [List.nil_append, Reader.oneOf, skipBlanks_append hb]
      rcases hz with rfl | ⟨more, rfl⟩
      · exact .failed fun _ => rfl
      · rw [skipBlanks_cons (by decide)]
        have hkey : Reader.text ('"' :: 't' :: more) = readString true .plain more >>= fun r =>
            .ok (String.ofList ('t' :: r.1), r.2) := by
          cases hr : readString true .plain more <;>
            simp [Reader.text, skipBlanks, isBlank, readString, hr, prepend, Except.map, bind,
              Except.bind, pure, Except.pure]
        simp only [hkey]
        cases readString true .plain more with
        | error d => exact .failed (by simp)
        | ok r =>
          simp only [Except.bind, bind, Reader.valueOf, hother]
          exact .failed (by simp)
    · have htext := lost_text hz blanks_nil hq
      rw [List.nil_append, List.cons_append] at htext
      rw [List.cons_append, oneOf_quote _ hb]
      generalize Reader.text ('"' :: (q ++ z)) = x at htext
      cases htext with
      | failed h => exact .failed h
      | @astray word more h =>
        simp only [Reader.valueOf, bind, Except.bind]
        cases names.lookup word with
        | none => exact .failed fun hnil => absurd hnil h
        | some b => exact .astray h

/-! ## Lists of parts -/

/-- What stands between two parts; in front of the first one there is nothing. -/
def separator (first : Bool) : List Char := if first then [] else [',']

theorem cut_separator (h : Cut (separator first) q) : first = false ∧ q = [] := by
  cases first with
  | true => exact absurd h cut_nil
  | false => exact ⟨rfl, h.eq_nil⟩

/-- What stands behind a part: the other ones, each after a comma, and the closing bracket. -/
def behind (layout : Layout) (depth : Nat) (closing : Char) (parts : List (List Char)) :
    List Char :=
  parts.flatMap (fun m => ',' :: (layout.lineBreak (depth + 1) ++ m)) ++
    (layout.lineBreak depth ++ [closing])

theorem behind_cons (closing : Char) (m : List Char) (ms : List (List Char)) :
    behind layout depth closing (m :: ms) = separator false ++
      (layout.lineBreak (depth + 1) ++ (m ++ behind layout depth closing ms)) := by
  simp [behind, separator]

theorem members_cons (m : List Char) (ms : List (List Char)) :
    Writer.members layout depth (m :: ms) =
      layout.lineBreak depth ++ m ++ ms.flatMap fun m => ',' :: (layout.lineBreak depth ++ m) := by
  induction ms generalizing m with
  | nil => simp [Writer.members]
  | cons next ms ih => simp [Writer.members, ih]

theorem enclosed_cons (opening closing : Char) (m : List Char) (ms : List (List Char)) :
    Writer.enclosed opening closing layout depth (m :: ms) =
      opening :: (separator true ++
        (layout.lineBreak (depth + 1) ++ (m ++ behind layout depth closing ms))) := by
  simp [Writer.enclosed, members_cons, behind, separator]

theorem apart_behind (hl : layout.IsBlank) {closing : Char} (hc : Apart [closing])
    (parts : List (List Char)) : Apart (behind layout depth closing parts) := by
  cases parts with
  | nil => exact apart_blanks (hl.lineBreak depth) hc
  | cons m ms => exact ⟨rfl, rfl⟩

theorem behind_ne_nil (closing : Char) (parts : List (List Char)) :
    behind layout depth closing parts ≠ [] := by simp [behind]

/-- What stands behind a part does not belong to it. -/
theorem apart_behind_append (hl : layout.IsBlank) {closing : Char} (hc : Apart [closing])
    (parts : List (List Char)) (rest : List Char) :
    Apart (behind layout depth closing parts ++ rest) :=
  (apart_behind hl hc parts).append (behind_ne_nil closing parts) rest

/-- The parts behind the first one are fewer than the characters of all of them. -/
theorem length_lt_length_parts (front bs part : List Char) (closing : Char) (g : α → List Char)
    (as : List α) (rest : List Char) : as.length <
      (front ++ (bs ++ (part ++ (behind layout depth closing (as.map g) ++ rest)))).length := by
  have hlt : as.length < (behind layout depth closing (as.map g)).length := by
    induction as with
    | nil => simp [behind]
    | cons a as ih =>
      rw [List.map_cons, behind_cons]
      simp only [separator, List.length_cons, List.length_append, Bool.false_eq_true, if_false]
      omega
  simp only [List.length_append]
  omega

/-- Without line breaks, only commas stand between the parts. -/
theorem printable_enclosed {opening closing : Char} {ms : List (List Char)}
    (ho : ¬opening.toNat < 0x20) (hc : ¬closing.toNat < 0x20) (h : ∀ m ∈ ms, Printable m) :
    Printable (Writer.enclosed opening closing .compact depth ms) := by
  intro c hmem
  cases ms with
  | nil =>
    simp only [Writer.enclosed, if_true, List.mem_cons, List.not_mem_nil, or_false] at hmem
    rcases hmem with rfl | rfl
    · exact ho
    · exact hc
  | cons m ms =>
    rw [enclosed_cons] at hmem
    simp only [separator, Layout.compact, behind, List.nil_append, if_true, List.mem_cons,
      List.mem_append, List.mem_flatMap, List.not_mem_nil, or_false] at hmem
    rcases hmem with rfl | hm | ⟨m', hm', rfl | hm⟩ | rfl
    · exact ho
    · exact h m List.mem_cons_self c hm
    · decide
    · exact h m' (List.mem_cons_of_mem _ hm') c hm
    · exact hc

/-! ## Arrays -/

section Items

variable {item : Reader β} {w : Writer} {a : α} {b : β} {as : List α} {write : α → Writer}
  {read : α → β}

theorem nextItem_append (first : Bool) (hb : Blanks bs) (cs : List Char) :
    Reader.nextItem first (bs ++ cs) = Reader.nextItem first cs := by
  rw [Reader.nextItem, nextChar_append hb, Reader.nextItem]

theorem nextItem_bracket (first : Bool) (rest : List Char) :
    Reader.nextItem first (']' :: rest) = .ok none := by
  rw [Reader.nextItem, nextChar_cons (by decide)]
  rfl

theorem nextItem_item (hb : Blanks bs) (hc : isBlank c = false) (hend : c ≠ ']') :
    Reader.nextItem first (separator first ++ (bs ++ c :: rest)) = .ok (some (c :: rest)) := by
  cases first with
  | true =>
    rw [separator, if_pos rfl, List.nil_append, nextItem_append _ hb, Reader.nextItem,
      nextChar_cons hc]
    simp [bind, Except.bind, hend, pure, Except.pure]
  | false =>
    rw [separator, if_neg Bool.false_ne_true, List.singleton_append, Reader.nextItem,
      nextChar_cons (by decide)]
    simp [nextChar_append hb, nextChar_cons hc, bind, Except.bind, hend, pure, Except.pure]

theorem nextItem_first (hc : isBlank c = false) (hend : c ≠ ']') :
    Reader.nextItem true (c :: rest) = .ok (some (c :: rest)) := nextItem_item blanks_nil hc hend

/-- The reader of the items comes to one of them and goes on behind it. -/
theorem items_value {cs : List Char}
    (hcs : ∃ c more, cs = c :: more ∧ isBlank c = false ∧ c ≠ ']') (hb : Blanks bs) :
    Reader.items item (fuel + 1) first (separator first ++ (bs ++ (cs ++ rest))) =
      item (cs ++ rest) >>= fun r => Reader.items item fuel false r.2 >>= fun rs =>
        .ok (r.1 :: rs.1, rs.2) := by
  obtain ⟨c, more, rfl, hc, hend⟩ := hcs
  rw [List.cons_append, Reader.items, nextItem_item hb hc hend]
  rfl

/-- One item is read, and then those behind it. -/
theorem items_item (h : Reads z item w b) (hl : layout.IsBlank) (hb : Blanks bs)
    (hmore : Apart more) :
    Reader.items item (fuel + 1) first (separator first ++ (bs ++ (w layout depth ++ more))) =
      Reader.items item fuel false more >>= fun r => .ok (b :: r.1, r.2) := by
  have hitem := h.whole layout depth [] more hl blanks_nil hmore
  rw [List.nil_append] at hitem
  rw [items_value (h.begins layout depth) hb, hitem]
  rfl

/-- The items behind the first one are read back. -/
theorem items_behind (h : ∀ a ∈ as, Reads z item (write a) (read a)) (hl : layout.IsBlank)
    (hf : as.length < fuel) (rest : List Char) :
    Reader.items item fuel false
      (behind layout depth ']' (as.map fun a => write a layout (depth + 1)) ++ rest) =
        .ok (as.map read, rest) := by
  induction as generalizing fuel with
  | nil =>
    obtain ⟨k, rfl⟩ := Nat.exists_eq_add_one.2 hf
    have hb := hl.lineBreak depth
    have hbehind : behind layout depth ']' [] ++ rest =
        layout.lineBreak depth ++ ']' :: rest := by simp [behind]
    rw [List.map_nil, hbehind, Reader.items, nextItem_append _ hb, nextItem_bracket,
      mark_append _ hb, mark_cons (by decide)]
    rfl
  | cons a as ih =>
    obtain ⟨k, rfl⟩ := Nat.exists_eq_add_one.2 (Nat.zero_lt_of_lt hf)
    obtain ⟨ha, has⟩ := List.forall_mem_cons.1 h
    rw [List.map_cons, behind_cons, List.append_assoc, List.append_assoc, List.append_assoc,
      items_item ha hl (hl.lineBreak _) (apart_behind_append hl ⟨rfl, rfl⟩ _ rest),
      ih has (by simpa using hf)]
    rfl

/-- What is left of a part and what stands in place of its end: nothing, or the beginning of it or
of a record. -/
theorem Reads.begins_cut (h : Reads z item w b) (hz : Resumes z)
    (hq : Cut (w layout depth) q) : z = [] ∧ q = [] ∨
      ∃ c cs, q ++ z = c :: cs ∧ isBlank c = false ∧ c ≠ ']' := by
  obtain ⟨c, cs, hw, hc, hend⟩ := h.begins layout depth
  rw [hw] at hq
  rcases cut_cons.1 hq with rfl | ⟨q, rfl, -⟩
  · rcases hz with rfl | ⟨more, rfl⟩
    · exact Or.inl ⟨rfl, rfl⟩
    · exact Or.inr ⟨_, _, rfl, by decide, by decide⟩
  · exact Or.inr ⟨c, q ++ z, rfl, hc, hend⟩

/-- Where blanks and a part are cut off, blanks and what is left of the part remain. -/
theorem Reads.cut_blanks (h : Reads z item w b) (hb : Blanks bs)
    (hq : Cut (bs ++ w layout depth) q) :
    ∃ bs' q', q = bs' ++ q' ∧ Blanks bs' ∧ Cut (w layout depth) q' := by
  rcases cut_append hq with hcut | ⟨q', rfl, hcut⟩
  · obtain ⟨c, cs, hw, -⟩ := h.begins layout depth
    refine ⟨q, [], by simp, fun b hm => hb b (hcut.mem hm), ?_⟩
    rw [hw]
    exact cut_cons.2 (Or.inl rfl)
  · exact ⟨bs, q', rfl, hb, hcut⟩

theorem nextItem_cutShort (hb : Blanks bs) :
    Reader.nextItem first (separator first ++ bs) = .error .cutShort := by
  have hnext : nextChar bs = .error .cutShort := by
    rw [← List.append_nil bs, nextChar_append hb]
    rfl
  cases first with
  | true => simp [separator, Reader.nextItem, hnext, bind, Except.bind]
  | false =>
    have hcomma : nextChar (',' :: bs) = .ok (',', bs) := nextChar_cons (by decide) _
    simp [separator, Reader.nextItem, hcomma, hnext, bind, Except.bind]

/-- No further item follows where a record stands. -/
theorem fails_nextItem (hz : Resumes z) (hb : Blanks bs) :
    Fails z (Reader.nextItem false (bs ++ z)) := by
  rw [nextItem_append _ hb, Reader.nextItem]
  rcases nextChar_resumes hz with ⟨rfl, hnext⟩ | ⟨more, rfl, hnext⟩
  · rw [hnext]
    exact ⟨_, rfl, fun _ => rfl⟩
  · rw [hnext]
    exact ⟨_, rfl, by simp⟩

/-- Nor behind a letter. -/
theorem nextItem_letter : Reader.nextItem false ('t' :: more) = .error .malformed := by
  rw [Reader.nextItem, nextChar_cons (by decide)]
  rfl

theorem Fails.items (h : Fails z (Reader.nextItem first cs)) :
    Fails z (Reader.items item fuel first cs) := by
  cases fuel with
  | zero => exact ⟨_, rfl, fun _ => rfl⟩
  | succ k =>
    rw [Reader.items]
    exact h.bind _

/-- Where an item is broken, the array fails. -/
theorem Broken.items (h : Broken z (item q)) (hnext : Reader.nextItem first cs = .ok (some q)) :
    Fails z (Reader.items item fuel first cs) := by
  cases fuel with
  | zero => exact ⟨_, rfl, fun _ => rfl⟩
  | succ k =>
    rw [Reader.items, hnext]
    refine h.bind (fun a more hne => Fails.bind (Fails.items ?_) _)
      fun a _ => Fails.bind (Fails.items ⟨_, rfl, fun _ => rfl⟩) _
    rw [nextItem_letter]
    exact ⟨_, rfl, fun hnil => absurd hnil hne⟩

theorem fails_items_item (h : Reads z item w b) (hz : Resumes z) (hl : layout.IsBlank)
    (hb : Blanks bs) (hq : Cut (separator first ++ (bs ++ w layout depth)) q) :
    Fails z (Reader.items item fuel first (q ++ z)) := by
  rcases cut_append hq with hsep | ⟨part, rfl, hpart⟩
  · obtain ⟨rfl, rfl⟩ := cut_separator hsep
    exact (fails_nextItem hz blanks_nil).items
  · obtain ⟨bs', q, rfl, hb', hcut⟩ := h.cut_blanks hb hpart
    have hitem := h.cut layout depth [] q hl blanks_nil hcut
    rw [List.append_assoc, List.append_assoc]
    rcases h.begins_cut hz hcut with ⟨rfl, rfl⟩ | ⟨c, cs, hqz, hc, hend⟩
    · rw [List.append_nil, List.append_nil]
      refine Fails.items ?_
      rw [nextItem_cutShort hb']
      exact ⟨_, rfl, fun _ => rfl⟩
    · rw [List.nil_append, hqz] at hitem
      rw [hqz]
      exact hitem.items (nextItem_item hb' hc hend)

theorem blanks_of_cut_bracket (hb : Blanks bs) (hq : Cut (bs ++ [c]) q) : Blanks q := by
  rcases cut_append hq with hcut | ⟨q', rfl, hcut⟩
  · exact fun b hm => hb b (hcut.mem hm)
  · rwa [hcut.eq_nil, List.append_nil]

/-- Items behind the first one, cut off. -/
theorem fails_items_behind (h : ∀ a ∈ as, Reads z item (write a) (read a)) (hz : Resumes z)
    (hl : layout.IsBlank)
    (hq : Cut (behind layout depth ']' (as.map fun a => write a layout (depth + 1))) q) :
    Fails z (Reader.items item fuel false (q ++ z)) := by
  induction as generalizing fuel q with
  | nil => exact (fails_nextItem hz (blanks_of_cut_bracket (hl.lineBreak depth) hq)).items
  | cons a as ih =>
    obtain ⟨ha, has⟩ := List.forall_mem_cons.1 h
    rw [List.map_cons, behind_cons, ← List.append_assoc, ← List.append_assoc] at hq
    rcases cut_append hq with hcut | ⟨q, rfl, hcut⟩
    · rw [List.append_assoc] at hcut
      exact fails_items_item ha hz hl (hl.lineBreak _) hcut
    · cases fuel with
      | zero => exact ⟨_, rfl, fun _ => rfl⟩
      | succ k =>
        simp only [List.append_assoc]
        rw [items_item ha hl (hl.lineBreak _)
          (apart_cut hz hcut (apart_behind hl ⟨rfl, rfl⟩ _))]
        exact (ih has hcut).bind _

theorem array_bracket (hb : Blanks bs) (rest : List Char) :
    Reader.array item (bs ++ '[' :: rest) = Reader.items item (rest.length + 1) true rest := by
  rw [Reader.array, skipBlanks_append hb, skipBlanks_cons (by decide)]
  rfl

/-- No array begins where a record does. -/
theorem fails_array (hz : Resumes z) (hb : Blanks bs) :
    Fails z (Reader.array item (bs ++ z)) := by
  unfold Reader.array
  rw [skipBlanks_append hb]
  rcases hz with rfl | ⟨more, rfl⟩
  · exact ⟨_, rfl, fun _ => rfl⟩
  · exact ⟨_, rfl, by simp⟩

theorem array_cons (write : α → Writer) (a : α) (as : List α) :
    Writer.array ((a :: as).map write) layout depth =
      '[' :: (separator true ++ (layout.lineBreak (depth + 1) ++ (write a layout (depth + 1) ++
        behind layout depth ']' (as.map fun a => write a layout (depth + 1))))) := by
  rw [Writer.array, List.map_cons, List.map_cons, enclosed_cons, List.map_map]
  rfl

/-- **An array is read back when its items are**, each as what it is read as. -/
theorem Reads.array_map (hz : Resumes z) (hi : Lost z (item z))
    (h : ∀ a ∈ as, Reads z item (write a) (read a)) :
    Reads z (Reader.array item) (Writer.array (as.map write)) (as.map read) where
  begins layout depth := by
    cases as with
    | nil => exact ⟨'[', _, rfl, by decide, by decide⟩
    | cons a as =>
      rw [array_cons]
      exact ⟨'[', _, rfl, by decide, by decide⟩
  whole layout depth bs rest hl hb _ := by
    cases as with
    | nil =>
      have hempty : Writer.array ([].map write) layout depth ++ rest = '[' :: ']' :: rest := rfl
      rw [hempty, array_bracket hb, Reader.items, nextItem_bracket, mark_cons (by decide)]
      rfl
    | cons a as =>
      obtain ⟨ha, has⟩ := List.forall_mem_cons.1 h
      rw [array_cons, List.cons_append, array_bracket hb]
      simp only [List.append_assoc]
      rw [items_item ha hl (hl.lineBreak _) (apart_behind_append hl ⟨rfl, rfl⟩ _ rest),
        items_behind has hl (length_lt_length_parts ..)]
      rfl
  cut layout depth bs q hl hb hq := by
    refine .lost (Fails.lost ?_)
    cases as with
    | nil =>
      rcases cut_cons.1 hq with rfl | ⟨q, rfl, hcut⟩
      · exact fails_array hz hb
      · obtain rfl := hcut.eq_nil
        rw [List.cons_append, array_bracket hb, List.nil_append]
        rcases hz with rfl | ⟨more, rfl⟩
        · exact ⟨_, rfl, fun _ => rfl⟩
        · exact (Broken.lost hi).items (nextItem_first (by decide) (by decide))
    | cons a as =>
      obtain ⟨ha, has⟩ := List.forall_mem_cons.1 h
      rw [array_cons] at hq
      rcases cut_cons.1 hq with rfl | ⟨q, rfl, hcut⟩
      · exact fails_array hz hb
      · rw [List.cons_append, array_bracket hb]
        rw [← List.append_assoc, ← List.append_assoc] at hcut
        rcases cut_append hcut with hpart | ⟨q, rfl, hbehind⟩
        · rw [List.append_assoc] at hpart
          exact fails_items_item ha hz hl (hl.lineBreak _) hpart
        · simp only [List.append_assoc]
          rw [items_item ha hl (hl.lineBreak _)
            (apart_cut hz hbehind (apart_behind hl ⟨rfl, rfl⟩ _))]
          exact (fails_items_behind has hz hl hbehind).bind _

theorem Reads.array {item : Reader α} (hz : Resumes z) (hi : Lost z (item z))
    (h : ∀ a ∈ as, Reads z item (write a) a) :
    Reads z (Reader.array item) (Writer.array (as.map write)) as := by
  have hall : Reads z (Reader.array item) (Writer.array (as.map write)) (as.map id) :=
    Reads.array_map hz hi h
  rwa [List.map_id] at hall

end Items

end NearDup.Json
