import Mathlib.Data.List.Infix
import NearDup.Json.Reader
import NearDup.Json.Writer

/-!
# Written strings are read back

A string is written character by character, and each character has an escape that the reader takes
for that character and nothing else. When the end of a written string is cut off and the beginning
of a record stands in its place, the reader takes the brace into the string and the first quote of
the record for its end. It then stands in front of the letter `t`, which nothing goes on with.

* `readString_quoted` — a written string is read back, whatever stands behind it
* `Cut` — what is left of a text when something is cut off its end
* `lost_quoted` — a string that is cut off is not read, or the reader is astray behind it
-/

namespace NearDup.Json

variable {α : Type} {c : Char} {cs ds q rest z : List Char} {paired : Bool}

/-! ## Characters -/

/-- The digit of a number below sixteen, as it is written in an escape. -/
theorem hexValue?_digit {n : Nat} (h : n < 16) :
    hexValue? (if n < 10 then Char.ofNat (0x30 + n) else Char.ofNat (0x57 + n)) = some n := by
  have hall : ∀ m ∈ List.range 16,
      hexValue? (if m < 10 then Char.ofNat (0x30 + m) else Char.ofNat (0x57 + m)) = some m := by
    decide
  exact hall n (List.mem_range.2 h)

theorem length_le_encodeChars (cs : List Char) : cs.length ≤ (Text.Utf8.encodeChars cs).length := by
  have hone : ∀ c : Char, 1 ≤ (Text.Utf8.encodeChar c).length := by
    intro c
    unfold Text.Utf8.encodeChar
    simp only
    repeat' split
    all_goals simp
  induction cs with
  | nil => simp
  | cons c cs ih =>
    have hc := hone c
    rw [Text.Utf8.encodeChars] at ih ⊢
    rw [List.flatMap_cons, List.length_append, List.length_cons]
    omega

theorem hasFourBytes_append (h : 4 ≤ cs.length) (rest : List Char) :
    hasFourBytes (cs ++ rest) = true := by
  have hlen : ((cs ++ rest).take 4).length = 4 := by
    rw [List.length_take, List.length_append]
    omega
  have hbytes := length_le_encodeChars ((cs ++ rest).take 4)
  simp only [hasFourBytes, decide_eq_true_eq]
  omega

theorem readString_controlEscape (h : c.toNat < 0x20) (rest : List Char) :
    readString paired .plain (controlEscape c ++ rest) =
      prepend c (readString paired .plain rest) := by
  have h₁ := hexValue?_digit (n := c.toNat / 16) (by omega)
  have h₂ := hexValue?_digit (n := c.toNat % 16) (by omega)
  have hfour : hasFourBytes ((controlEscape c).drop 2 ++ rest) = true :=
    hasFourBytes_append (by simp [controlEscape]) rest
  have hvalue : c.toNat / 16 * 16 + c.toNat % 16 = c.toNat := by omega
  have hlow : isLow c.toNat = false := by
    simp [isLow]
    omega
  have hhigh : isHigh c.toNat = false := by
    simp [isHigh]
    omega
  simp only [controlEscape, List.drop_succ_cons, List.drop_zero, List.cons_append,
    List.nil_append] at hfour
  simp only [controlEscape, List.cons_append, List.nil_append, readString]
  simp [hfour, h₁, h₂, hvalue, hlow, hhigh, show hexValue? '0' = some 0 from rfl]

/-- A character is written as it is, behind a backslash, or by the digits of its code point. -/
theorem escape_cases (c : Char) :
    (escape c = [c] ∧ c ≠ '"' ∧ c ≠ '\\' ∧ ¬c.toNat < 0x20) ∨
    (∃ letter, escape c = ['\\', letter] ∧ letter ≠ 'u' ∧ ¬letter.toNat < 0x20 ∧
      shortEscape? letter = some c) ∨
    (escape c = controlEscape c ∧ c.toNat < 0x20) := by
  unfold escape
  repeat' split
  all_goals
    first
    | next h => exact Or.inr (Or.inl ⟨_, rfl, by decide, by decide, by rw [h]; decide⟩)
    | skip
  · next h => exact Or.inr (Or.inr ⟨rfl, h⟩)
  · next h₁ h₂ _ _ _ _ _ h => exact Or.inl ⟨rfl, h₁, h₂, h⟩

/-- A written character is read back. -/
theorem readString_escape (c : Char) (rest : List Char) :
    readString paired .plain (escape c ++ rest) = prepend c (readString paired .plain rest) := by
  rcases escape_cases c with ⟨he, h₁, h₂, h₃⟩ | ⟨letter, he, hu, -, hs⟩ | ⟨he, hc⟩
  · simp [he, readString, h₁, h₂, h₃]
  · simp [he, readString, hu, hs]
  · rw [he, readString_controlEscape hc]

/-- **A written string is read back**, whatever stands behind it. -/
theorem readString_quoted (paired : Bool) (cs rest : List Char) :
    readString paired .plain (cs.flatMap escape ++ '"' :: rest) = .ok (cs, rest) := by
  induction cs with
  | nil => simp [readString]
  | cons c cs ih =>
    rw [List.flatMap_cons, List.append_assoc, readString_escape, ih]
    rfl

/-! ## Control characters -/

/-- There is no control character in a text. -/
def Printable (cs : List Char) : Prop := ∀ c ∈ cs, ¬c.toNat < 0x20

theorem printable_escape (c : Char) : Printable (escape c) := by
  have hdigit : ∀ n < 16, ¬(if n < 10 then Char.ofNat (0x30 + n)
      else Char.ofNat (0x57 + n)).toNat < 0x20 := by decide
  unfold Printable
  rcases escape_cases c with ⟨he, -, -, hc⟩ | ⟨letter, he, -, hl, -⟩ | ⟨he, hc⟩
  · simpa [he] using hc
  · simpa [he] using hl
  · rw [he, controlEscape]
    simp only [List.forall_mem_cons]
    exact ⟨by decide, by decide, by decide, by decide, hdigit _ (by omega), hdigit _ (by omega),
      by simp⟩

theorem printable_quoted (cs : List Char) : Printable (quoted cs) := by
  intro c h
  simp only [quoted, List.mem_cons, List.mem_append, List.mem_flatMap, List.not_mem_nil,
    or_false] at h
  rcases h with rfl | ⟨d, -, hc⟩ | rfl
  · decide
  · exact printable_escape d c hc
  · decide

/-! ## Cut texts -/

/-- Of a text this beginning is left when something is cut off its end. -/
def Cut (text q : List Char) : Prop := ∃ off, off ≠ [] ∧ text = q ++ off

@[simp] theorem cut_nil : ¬Cut [] q := by
  rintro ⟨off, hne, h⟩
  exact hne (List.append_eq_nil_iff.1 h.symm).2

theorem cut_append {xs ys : List Char} (h : Cut (xs ++ ys) q) :
    Cut xs q ∨ ∃ q', q = xs ++ q' ∧ Cut ys q' := by
  obtain ⟨off, hne, h⟩ := h
  rcases List.append_eq_append_iff.1 h with ⟨q', rfl, rfl⟩ | ⟨front, rfl, rfl⟩
  · exact Or.inr ⟨q', rfl, off, hne, rfl⟩
  · by_cases hf : front = []
    · subst hf
      exact Or.inr ⟨[], by simp, ys, by simpa using hne, rfl⟩
    · exact Or.inl ⟨front, hf, rfl⟩

theorem cut_cons {text : List Char} :
    Cut (c :: text) q ↔ q = [] ∨ ∃ q', q = c :: q' ∧ Cut text q' := by
  constructor
  · rintro ⟨off, hne, h⟩
    cases q with
    | nil => exact Or.inl rfl
    | cons d q =>
      rw [List.cons_append, List.cons.injEq] at h
      exact Or.inr ⟨q, by rw [h.1], off, hne, h.2⟩
  · rintro (rfl | ⟨q', rfl, off, hne, rfl⟩)
    · exact ⟨c :: text, by simp, rfl⟩
    · exact ⟨off, hne, rfl⟩

/-- Of one character nothing is left. -/
theorem Cut.eq_nil (h : Cut [c] q) : q = [] := by
  rcases cut_cons.1 h with rfl | ⟨_, -, hnil⟩
  · rfl
  · exact absurd hnil cut_nil

theorem Cut.length_lt {text : List Char} (h : Cut text q) : q.length < text.length := by
  obtain ⟨off, hne, rfl⟩ := h
  have hpos := List.length_pos_of_ne_nil hne
  rw [List.length_append]
  omega

theorem Cut.mem {text : List Char} (h : Cut text q) (hc : c ∈ q) : c ∈ text := by
  obtain ⟨off, -, rfl⟩ := h
  exact List.mem_append_left _ hc

/-- What stands where a text was cut off: nothing, or the beginning of a record. -/
def Resumes (z : List Char) : Prop := z = [] ∨ ∃ more, z = '\x7b' :: '"' :: 't' :: more

/-- What comes of reading when `z` stands in place of the end: an error, which says that the text is
cut short if `z` is nothing, or a value with the first letter of a record's first key behind it. -/
inductive Lost (z : List Char) : Except Defect (α × List Char) → Prop
  | failed {d : Defect} (h : z = [] → d = .cutShort) : Lost z (.error d)
  | astray {a : α} {more : List Char} (h : z ≠ []) : Lost z (.ok (a, 't' :: more))

theorem Lost.prepend {result : Except Defect (List Char × List Char)} (h : Lost z result)
    (c : Char) : Lost z (prepend c result) := by
  cases h with
  | failed h => exact .failed h
  | astray h => exact .astray h

/-! ## Cut strings -/

theorem lost_plain (hz : Resumes z) : Lost z (readString paired .plain z) := by
  rcases hz with rfl | ⟨more, rfl⟩
  · exact .failed fun _ => rfl
  · exact (Lost.astray (by simp)).prepend '\x7b'

theorem lost_backslash (hz : Resumes z) : Lost z (readString paired .escape z) := by
  rcases hz with rfl | ⟨more, rfl⟩
  · exact .failed fun _ => rfl
  · exact .failed (by simp)

/-- Among the digits of an escape nothing else can stand. -/
theorem lost_hex (hz : Resumes z) (hd : ∀ d ∈ ds, ∃ n, hexValue? d = some n) {further : Nat}
    (hl : ds.length ≤ further) (value : Nat) (high : Option Nat) :
    Lost z (readString paired (.hex further value high) (ds ++ z)) := by
  induction ds generalizing further value with
  | nil =>
    rcases hz with rfl | ⟨more, rfl⟩
    · exact .failed fun _ => rfl
    · exact .failed (by simp)
  | cons d ds ih =>
    obtain ⟨n, hn⟩ := hd d List.mem_cons_self
    cases further with
    | zero => simp at hl
    | succ k =>
      simp only [List.cons_append, readString, hn]
      exact ih (fun d hm => hd d (List.mem_cons_of_mem _ hm)) (by simpa using hl) _

/-- Where a character is cut off, no other begins. -/
theorem lost_escape (hz : Resumes z) (hq : Cut (escape c) q) :
    Lost z (readString paired .plain (q ++ z)) := by
  rcases escape_cases c with ⟨he, -⟩ | ⟨letter, he, -⟩ | ⟨he, hc⟩
  · rw [he] at hq
    simp only [cut_cons, cut_nil, and_false, exists_false, or_false] at hq
    subst hq
    exact lost_plain hz
  · rw [he] at hq
    simp only [cut_cons, cut_nil, and_false, exists_false, or_false] at hq
    rcases hq with rfl | ⟨_, rfl, rfl⟩
    · exact lost_plain hz
    · simpa [readString] using lost_backslash hz
  · rw [he, controlEscape] at hq
    rcases cut_cons.1 hq with rfl | ⟨_, rfl, hletter⟩
    · exact lost_plain hz
    rcases cut_cons.1 hletter with rfl | ⟨ds, rfl, hds⟩
    · simpa [readString] using lost_backslash hz
    have hd : ∀ d ∈ ds, ∃ n, hexValue? d = some n := by
      intro d hm
      have hmem := hds.mem hm
      simp only [List.mem_cons, List.not_mem_nil, or_false] at hmem
      rcases hmem with rfl | rfl | rfl | rfl
      · exact ⟨0, rfl⟩
      · exact ⟨0, rfl⟩
      · exact ⟨_, hexValue?_digit (by omega)⟩
      · exact ⟨_, hexValue?_digit (by omega)⟩
    have hl : ds.length ≤ 3 := Nat.lt_succ_iff.1 hds.length_lt
    simp only [List.cons_append, readString, Char.reduceEq, if_true, if_false]
    split
    · exact lost_hex hz hd hl _ _
    · exact .failed fun _ => rfl

/-- **A string that is cut off is not read**, or the reader is astray behind it. -/
theorem lost_quoted (hz : Resumes z) (hq : Cut (cs.flatMap escape ++ ['"']) q) :
    Lost z (readString paired .plain (q ++ z)) := by
  induction cs generalizing q with
  | nil =>
    rw [hq.eq_nil]
    exact lost_plain hz
  | cons c cs ih =>
    rw [List.flatMap_cons, List.append_assoc] at hq
    rcases cut_append hq with hchar | ⟨q', rfl, hcs⟩
    · exact lost_escape hz hchar
    · rw [List.append_assoc, readString_escape]
      exact (ih hcs).prepend c

end NearDup.Json
