import NearDup.Proofs.Json.Records

/-!
# Values of the wrong type are refused

A double that is not finite is written as null, which no reader of numbers takes. An array or a
record is refused for the first such value in it: all that is written in front of it is read, and
what stands behind it is not looked at any more.

* `Refuses` — a reader finds that a written value has the wrong type
* `refuses_double` — a double that is not finite
* `refuses_array`, `refuses_record` — what such a value is part of
-/

namespace NearDup.Json

variable {α β π : Type} {bs rest more z : List Char} {layout : Layout} {depth fuel : Nat}
  {first : Bool}

/-- A reader stops at a written value, whatever stands behind it, since its type is wrong. -/
structure Refuses (reader : Reader α) (w : Writer) : Prop where
  begins : ∀ layout depth, ∃ c more, w layout depth = c :: more ∧ isBlank c = false ∧ c ≠ ']'
  whole : ∀ layout depth bs rest, layout.IsBlank → Blanks bs → Apart rest →
    reader (bs ++ (w layout depth ++ rest)) = .error .mismatch

/-- **A double that is not finite is refused.** -/
theorem refuses_double {x : Binary64} (hx : x.isFinite = false) :
    Refuses Reader.double (Writer.double x) where
  begins _ _ := ⟨'n', _, by rw [Writer.double, hx]; rfl, by decide, by decide⟩
  whole _ _ bs rest _ hb _ := by
    rw [Writer.double, hx, Reader.double, Reader.numeral, skipBlanks_append hb]
    rfl

/-! ## Arrays -/

section Items

variable {item : Reader β} {w : Writer} {a : α} {as : List α} {write : α → Writer}

/-- Items are read one after the other up to one that is refused. -/
inductive Halts (z : List Char) (item : Reader β) (write : α → Writer) : List α → Prop
  | here {a : α} {as : List α} (refuses : Refuses item (write a)) : Halts z item write (a :: as)
  | later {a : α} {as : List α} {b : β} (reads : Reads z item (write a) b)
      (rest : Halts z item write as) : Halts z item write (a :: as)

/-- Where each item is read or refused, and one is refused, they are read up to such a one. -/
theorem halts_of_mem (h : ∀ a ∈ as, (∃ b, Reads z item (write a) b) ∨ Refuses item (write a))
    (ha : a ∈ as) (hrefuse : Refuses item (write a)) : Halts z item write as := by
  induction as with
  | nil => simp at ha
  | cons next as ih =>
    obtain ⟨hnext, has⟩ := List.forall_mem_cons.1 h
    rcases hnext with ⟨b, hnext⟩ | hnext
    · rcases List.mem_cons.1 ha with rfl | ha
      · exact .here hrefuse
      · exact .later hnext (ih has ha)
    · exact .here hnext

theorem items_refused (h : Refuses item w) (hl : layout.IsBlank) (hb : Blanks bs)
    (hmore : Apart more) :
    Reader.items item (fuel + 1) first (separator first ++ (bs ++ (w layout depth ++ more))) =
      .error .mismatch := by
  have hitem := h.whole layout depth [] more hl blanks_nil hmore
  rw [List.nil_append] at hitem
  rw [items_value (h.begins layout depth) hb, hitem]
  rfl

theorem Halts.ne_nil (h : Halts z item write as) : as ≠ [] := by
  cases h <;> simp

/-- Items up to one that is refused: the first one and those behind it. -/
theorem items_halts (h : Halts z item write (a :: as)) (hl : layout.IsBlank) (hb : Blanks bs)
    (hf : as.length < fuel) (rest : List Char) :
    Reader.items item fuel first (separator first ++ (bs ++ (write a layout (depth + 1) ++
      (behind layout depth ']' (as.map fun a => write a layout (depth + 1)) ++ rest)))) =
        .error .mismatch := by
  induction as generalizing a fuel first bs with
  | nil =>
    obtain ⟨k, rfl⟩ := Nat.exists_eq_add_one.2 (Nat.zero_lt_of_lt hf)
    cases h with
    | here refuses => exact items_refused refuses hl hb (apart_behind_append hl ⟨rfl, rfl⟩ _ rest)
    | later reads further => exact absurd rfl further.ne_nil
  | cons next as ih =>
    obtain ⟨k, rfl⟩ := Nat.exists_eq_add_one.2 (Nat.zero_lt_of_lt hf)
    cases h with
    | here refuses => exact items_refused refuses hl hb (apart_behind_append hl ⟨rfl, rfl⟩ _ rest)
    | later reads further =>
      rw [items_item reads hl hb (apart_behind_append hl ⟨rfl, rfl⟩ _ rest), List.map_cons,
        behind_cons]
      simp only [List.append_assoc]
      rw [ih further (hl.lineBreak _) (by simpa using hf)]
      rfl

/-- **An array is refused if an item is**, and those in front of it are read. -/
theorem refuses_array (h : Halts z item write as) :
    Refuses (Reader.array item) (Writer.array (as.map write)) := by
  obtain ⟨a, as, rfl⟩ := List.exists_cons_of_ne_nil h.ne_nil
  refine ⟨fun layout depth => ?_, fun layout depth bs rest hl hb _ => ?_⟩
  · rw [array_cons]
    exact ⟨'[', _, rfl, by decide, by decide⟩
  · rw [array_cons, List.cons_append, array_bracket hb]
    simp only [List.append_assoc]
    exact items_halts h hl (hl.lineBreak _) (Nat.lt_succ_of_lt (length_lt_length_parts ..)) rest

end Items

/-! ## Records -/

section Fields

variable {fields : List (Member π)} {finish : π → Option α} {p p' : π} {m : Member π}
  {f : String × Writer} {fs : List (String × Writer)}

/-- Keys and values are read one after the other, up to a value that is refused. -/
inductive Balks (z : List Char) (fields : List (Member π)) : π → List (String × Writer) → Prop
  | here {p : π} {f : String × Writer} {fs : List (String × Writer)} {m : Member π}
      (found : fields.find? (·.name.toList = f.1.toList) = some m) (free : m.isFilled p = false)
      (refuses : Refuses (m.fill p) f.2) : Balks z fields p (f :: fs)
  | later {p p₁ : π} {f : String × Writer} {fs : List (String × Writer)} {m : Member π}
      (found : fields.find? (·.name.toList = f.1.toList) = some m) (free : m.isFilled p = false)
      (reads : Reads z (m.fill p) f.2 p₁) (rest : Balks z fields p₁ fs) :
      Balks z fields p (f :: fs)

section Places

variable {name : String} {get : π → Option β} {set : π → β → π} {reader : Reader β} {w : Writer}
  {b : β}

theorem Refuses.make (h : Refuses reader w) (p : π) :
    Refuses ((Member.make name get set reader).fill p) w := by
  refine ⟨h.begins, fun layout depth bs rest hl hb hrest => ?_⟩
  simp [Member.make, h.whole layout depth bs rest hl hb hrest, bind, Except.bind]

theorem Balks.make_here
    (found : fields.find? (·.name.toList = name.toList) = some (.make name get set reader))
    (free : get p = none) (h : Refuses reader w) : Balks z fields p ((name, w) :: fs) :=
  .here found (isFilled_make free) (h.make p)

theorem Balks.make_later
    (found : fields.find? (·.name.toList = name.toList) = some (.make name get set reader))
    (free : get p = none) (h : Reads z reader w b) (rest : Balks z fields (set p b) fs) :
    Balks z fields p ((name, w) :: fs) :=
  .later found (isFilled_make free) (h.make p) rest

end Places

theorem keyed_refused (found : fields.find? (·.name.toList = f.1.toList) = some m)
    (free : m.isFilled p = false) (refuses : Refuses (m.fill p) f.2) (hl : layout.IsBlank)
    (hb : Blanks bs) (hmore : Apart more) :
    Reader.keyed fields finish (fuel + 1) first p
      (separator first ++ (bs ++ (Writer.field layout depth f ++ more))) = .error .mismatch := by
  rw [keyed_value found free hb, refuses.whole layout depth _ more hl hl.afterColon hmore]
  rfl

theorem Balks.ne_nil (h : Balks z fields p fs) : fs ≠ [] := by
  cases h <;> simp

/-- Fields up to one with a value that is refused: the first one and those behind it. -/
theorem keyed_balks (h : Balks z fields p (f :: fs)) (hl : layout.IsBlank) (hb : Blanks bs)
    (hf : fs.length < fuel) (rest : List Char) :
    Reader.keyed fields finish fuel first p
      (separator first ++ (bs ++ (Writer.field layout (depth + 1) f ++
        (behind layout depth '\x7d' (fs.map (Writer.field layout (depth + 1))) ++ rest)))) =
          .error .mismatch := by
  induction fs generalizing p f fuel first bs with
  | nil =>
    obtain ⟨k, rfl⟩ := Nat.exists_eq_add_one.2 (Nat.zero_lt_of_lt hf)
    cases h with
    | here found free refuses =>
      exact keyed_refused found free refuses hl hb (apart_behind_append hl ⟨rfl, rfl⟩ _ rest)
    | later found free reads further => exact absurd rfl further.ne_nil
  | cons next fs ih =>
    obtain ⟨k, rfl⟩ := Nat.exists_eq_add_one.2 (Nat.zero_lt_of_lt hf)
    cases h with
    | here found free refuses =>
      exact keyed_refused found free refuses hl hb (apart_behind_append hl ⟨rfl, rfl⟩ _ rest)
    | later found free reads further =>
      rw [keyed_field found free reads hl hb (apart_behind_append hl ⟨rfl, rfl⟩ _ rest),
        List.map_cons, behind_cons]
      simp only [List.append_assoc]
      exact ih further (hl.lineBreak _) (by simpa using hf)

/-- **A record is refused if a value in it is**, and those in front of it are read. -/
theorem refuses_record (h : Balks z fields p fs) :
    Refuses (Reader.record fields p finish) (Writer.object fs) := by
  obtain ⟨f, fs, rfl⟩ := List.exists_cons_of_ne_nil h.ne_nil
  refine ⟨fun layout depth => ?_, fun layout depth bs rest hl hb _ => ?_⟩
  · rw [object_cons]
    exact ⟨'\x7b', _, rfl, by decide, by decide⟩
  · rw [object_cons, List.cons_append, record_brace _ hb]
    simp only [List.append_assoc]
    exact keyed_balks h hl (hl.lineBreak _) (Nat.lt_succ_of_lt (length_lt_length_parts ..)) rest

end Fields

end NearDup.Json
