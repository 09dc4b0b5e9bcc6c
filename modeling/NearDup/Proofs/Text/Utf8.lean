import Mathlib
import NearDup.Text.Utf8

/-!
# Strict reading undoes writing

A byte sequence that is read strictly is the one that is written for the text read: there is one way
to write a text. Inside a character the scan knows the bits read so far and the range of the next
byte, and these are such that whatever completes the character, the bytes read so far are those its
encoding begins with.

Lenient reading agrees with this on everything that is UTF-8, and is no injection beyond.

* `Begun` — the bytes read so far begin the encoding of every character that can follow
* `decode?_eq_some_iff` — strict reading gives a text exactly from the bytes written for it
* `eq_iff_of_decodeLenient_eq` — when two byte sequences that read as one text are the same
* `decode?_append_eq_none` — a character that is cut off stays so when text is written behind it
-/

namespace NearDup.Text.Utf8

variable {b : UInt8} {p : Pending} {bytes bytes' begun : List UInt8} {cs : List Char}
  {text : String} {n : Nat}

/-! ## Characters -/

/-- The last `k` bytes of the encoding of a code point; all of them are continuation bytes. -/
def continuation (n : Nat) : Nat → List UInt8
  | 0 => []
  | k + 1 => .ofNat (0x80 + n / 64 ^ k % 64) :: continuation n k

/-- The encoding of every code point that has the bits read so far, and whose next byte is in range,
begins with the bytes read so far. -/
structure Begun (p : Pending) (begun : List UInt8) : Prop where
  low : 0x80 ≤ p.low
  high : p.high ≤ 0xBF
  encode : ∀ n, n / 64 ^ (p.further + 1) = p.value →
    p.low ≤ 0x80 + n / 64 ^ p.further % 64 → 0x80 + n / 64 ^ p.further % 64 ≤ p.high →
    encodeChar (.ofNat n) = begun ++ continuation n (p.further + 1)

/-- A byte that is a character is the encoding of it. -/
theorem encodeChar_of_lead {c : Char} (h : lead b = .whole (some c)) : encodeChar c = [b] := by
  unfold lead at h
  simp only at h
  split at h
  · next hb =>
    cases h
    have hvalid : b.toNat.isValidChar := Or.inl (by omega)
    simp [encodeChar, Char.toNat_ofNat, hvalid, hb]
  · repeat' split at h
    all_goals cases h

/-- A byte that begins a character of two bytes, three or four. -/
theorem lead_eq_more (h : lead b = .more p) :
    (∃ v, b.toNat = 0xC0 + v ∧ 2 ≤ v ∧ v < 32 ∧ p = ⟨0, 0x80, 0xBF, v⟩) ∨
    (∃ v low high, b.toNat = 0xE0 + v ∧ v < 16 ∧ 0x80 ≤ low ∧ high ≤ 0xBF ∧
      (v = 0 → low = 0xA0) ∧ (v = 0xD → high = 0x9F) ∧ p = ⟨1, low, high, v⟩) ∨
    ∃ v low high, b.toNat = 0xF0 + v ∧ v < 5 ∧ 0x80 ≤ low ∧ high ≤ 0xBF ∧
      (v = 0 → low = 0x90) ∧ (v = 4 → high = 0x8F) ∧ p = ⟨2, low, high, v⟩ := by
  unfold lead at h
  simp only at h
  repeat' split at h
  all_goals cases h
  · exact Or.inl ⟨b.toNat - 0xC0, by omega, by omega, by omega, rfl⟩
  · exact Or.inr (Or.inl ⟨0, _, _, by omega, by omega, by omega, by omega, by omega, by omega, rfl⟩)
  · exact Or.inr (Or.inl ⟨0xD, _, _, by omega, by omega, by omega, by omega, by omega, by omega,
      rfl⟩)
  · exact Or.inr (Or.inl ⟨b.toNat - 0xE0, _, _, by omega, by omega, by omega, by omega, by omega,
      by omega, rfl⟩)
  · exact Or.inr (Or.inr ⟨0, _, _, by omega, by omega, by omega, by omega, by omega, by omega, rfl⟩)
  · exact Or.inr (Or.inr ⟨b.toNat - 0xF0, _, _, by omega, by omega, by omega, by omega, by omega,
      by omega, rfl⟩)
  · exact Or.inr (Or.inr ⟨4, _, _, by omega, by omega, by omega, by omega, by omega, by omega, rfl⟩)

theorem ofNat_eq_of_toNat (h : b.toNat = n) : UInt8.ofNat n = b := by
  rw [← h, UInt8.ofNat_toNat]

/-- Behind its first byte, a character is begun. -/
theorem begun_of_lead (h : lead b = .more p) : Begun p [b] := by
  -- the bits of the first byte and the range of the second one say how long the encoding is; the
  -- ranges leave out what is no code point, so each time the encoding is that of a character
  rcases lead_eq_more h with ⟨v, hb, hv, hv', rfl⟩ | ⟨v, low, high, hb, hv, hl, hh, h0, hd, rfl⟩ |
    ⟨v, low, high, hb, hv, hl, hh, h0, h4, rfl⟩
  · refine ⟨by simp, by simp, fun n hn _ _ => ?_⟩
    simp only [Nat.zero_add, pow_one] at hn
    have hvalid : n.isValidChar := Or.inl (by omega)
    rw [encodeChar, Char.toNat_ofNat, if_pos hvalid]
    simp only
    rw [if_neg (by omega), if_pos (by omega), ofNat_eq_of_toNat (b := b) (by omega)]
    simp [continuation]
  · refine ⟨hl, hh, fun n hn hlow hhigh => ?_⟩
    simp only [Nat.reduceAdd, Nat.reducePow, pow_one] at hn hlow hhigh
    have hvalid : n.isValidChar := by
      unfold Nat.isValidChar
      omega
    rw [encodeChar, Char.toNat_ofNat, if_pos hvalid]
    simp only
    rw [if_neg (by omega), if_neg (by omega), if_pos (by omega),
      ofNat_eq_of_toNat (b := b) (by omega)]
    simp [continuation]
  · refine ⟨hl, hh, fun n hn hlow hhigh => ?_⟩
    simp only [Nat.reduceAdd, Nat.reducePow] at hn hlow hhigh
    have hvalid : n.isValidChar := by
      unfold Nat.isValidChar
      omega
    rw [encodeChar, Char.toNat_ofNat, if_pos hvalid]
    simp only
    rw [if_neg (by omega), if_neg (by omega), if_neg (by omega),
      ofNat_eq_of_toNat (b := b) (by omega)]
    simp [continuation]

/-- One more byte in range, and the character is complete or still begun. -/
theorem Begun.next (h : Begun p begun) (hl : p.low ≤ b.toNat) (hh : b.toNat ≤ p.high) :
    match p.further with
    | 0 => encodeChar (.ofNat (p.value * 64 + (b.toNat - 0x80))) = begun ++ [b]
    | k + 1 => Begun ⟨k, 0x80, 0xBF, p.value * 64 + (b.toNat - 0x80)⟩ (begun ++ [b]) := by
  obtain ⟨further, low, high, v⟩ := p
  obtain ⟨hlow, hhigh, henc⟩ := h
  simp only at hl hh hlow hhigh henc ⊢
  cases further with
  | zero =>
    simp only [Nat.zero_add, pow_one, pow_zero, Nat.div_one] at henc
    rw [henc _ (by omega) (by omega) (by omega), continuation, continuation]
    simp only [pow_zero, Nat.div_one]
    rw [ofNat_eq_of_toNat (b := b) (by omega)]
  | succ k =>
    refine ⟨by simp, by simp, fun n hn _ _ => ?_⟩
    simp only at hn
    -- the bits read so far are those before, with six more
    have hdiv : n / 64 ^ (k + 1 + 1) = v := by
      rw [pow_succ, ← Nat.div_div_eq_div_mul, hn]
      omega
    rw [henc n hdiv (by omega) (by omega), continuation, hn,
      ofNat_eq_of_toNat (b := b) (by omega), List.append_assoc, List.singleton_append]

/-! ## Texts -/

theorem allSome_cons_eq_some {α : Type} {x : Option α} {xs : List (Option α)} {ys : List α} :
    allSome (x :: xs) = some ys ↔
      ∃ a rest, x = some a ∧ allSome xs = some rest ∧ ys = a :: rest := by
  cases x with
  | none => simp [allSome]
  | some a =>
    rw [allSome, Option.map_eq_some_iff]
    simp [eq_comm]

/-- **What is scanned without an ill-formed stretch is the encoding of its characters**, be it from
the beginning of a character on or inside one. -/
theorem eq_encodeChars_of_scan (bytes : List UInt8) :
    (∀ cs, allSome (scan none bytes) = some cs → bytes = encodeChars cs) ∧
    ∀ p begun cs, Begun p begun → allSome (scan (some p) bytes) = some cs →
      begun ++ bytes = encodeChars cs := by
  -- both at once: a first byte leads from between characters into one, and a last byte out again
  induction bytes with
  | nil =>
    refine ⟨?_, ?_⟩
    · rintro cs ⟨⟩
      rfl
    · intro p begun cs _ h
      cases h
  | cons b rest ih =>
    obtain ⟨hbetween, hinside⟩ := ih
    refine ⟨?_, ?_⟩
    · intro cs h
      rw [scan] at h
      split at h
      · next c hlead =>
        obtain ⟨c, cs', rfl, hrest, rfl⟩ := allSome_cons_eq_some.1 h
        rw [encodeChars, List.flatMap_cons, encodeChar_of_lead hlead, List.singleton_append]
        exact congrArg (b :: ·) (hbetween cs' hrest)
      · next p hlead => exact hinside p [b] cs (begun_of_lead hlead) h
    · intro p begun cs hbegun h
      rw [scan] at h
      split at h
      · next hrange =>
        have hnext := hbegun.next hrange.1 hrange.2
        simp only at h
        split at h
        · next hk =>
          obtain ⟨c, cs', hc, hrest, rfl⟩ := allSome_cons_eq_some.1 h
          obtain rfl := Option.some.inj hc
          simp only [hk] at hnext
          rw [encodeChars, List.flatMap_cons, hnext, List.append_assoc, List.singleton_append]
          exact congrArg (begun ++ b :: ·) (hbetween cs' hrest)
        · next k hk =>
          simp only [hk] at hnext
          have hrest := hinside _ _ cs hnext h
          rwa [List.append_assoc, List.singleton_append] at hrest
      · -- a byte out of range makes an ill-formed stretch
        cases h

/-- **Strict reading gives a text exactly from the bytes that are written for it.** -/
theorem decode?_eq_some_iff : decode? bytes = some text ↔ bytes = encode text := by
  constructor
  · intro h
    obtain ⟨cs, hcs, rfl⟩ := Option.map_eq_some_iff.1 h
    rw [encode, String.toList_ofList]
    exact (eq_encodeChars_of_scan bytes).1 cs hcs
  · rintro rfl
    exact decode?_encode text

/-- What is read strictly reads the same leniently. -/
theorem decodeLenient_of_decode? (h : decode? bytes = some text) : decodeLenient bytes = text := by
  rw [decode?_eq_some_iff.1 h, decodeLenient_encode]

/-- **Two byte sequences that read as one text**, the first of them UTF-8, are the same exactly if
the second is UTF-8, too. -/
theorem eq_iff_of_decodeLenient_eq (h : decodeLenient bytes = decodeLenient bytes')
    (hutf : (decode? bytes).isSome) : bytes' = bytes ↔ (decode? bytes').isSome := by
  obtain ⟨text, ht⟩ := Option.isSome_iff_exists.1 hutf
  constructor
  · rintro rfl
    exact hutf
  · intro hutf'
    obtain ⟨text', ht'⟩ := Option.isSome_iff_exists.1 hutf'
    rw [decodeLenient_of_decode? ht, decodeLenient_of_decode? ht'] at h
    rw [decode?_eq_some_iff.1 ht, decode?_eq_some_iff.1 ht', h]

/-! ## Cut texts -/

theorem encode_append (s t : String) : encode (s ++ t) = encode s ++ encode t := by
  simp [encode, encodeChars]

/-- What is written is read in front of any bytes. -/
theorem decode?_encode_append (text : String) (bytes : List UInt8) :
    decode? (encode text ++ bytes) = (decode? bytes).map (text ++ ·) := by
  have hall : ∀ (cs : List Char) (xs : List (Option Char)),
      allSome (cs.map some ++ xs) = (allSome xs).map (cs ++ ·) := by
    intro cs xs
    induction cs with
    | nil => simp
    | cons c cs ih => simp [allSome, ih, Function.comp_def]
  rw [decode?, encode, scan_encodeChars_append, hall, decode?, Option.map_map, Option.map_map]
  congr 1
  funext cs
  simp

/-- A text whose bytes begin another's is the beginning of it. -/
theorem begins_of_encode_begins {s t : String} (h : encode s <+: encode t) :
    s.toList <+: t.toList := by
  obtain ⟨off, h⟩ := h
  have hdecode := decode?_encode_append s off
  rw [h, decode?_encode] at hdecode
  obtain ⟨more, -, rfl⟩ := Option.map_eq_some_iff.1 hdecode.symm
  exact ⟨more.toList, by simp⟩

/-- A byte below 128 in a character is all of it. -/
theorem encodeChar_of_mem {c : Char} (h : b ∈ encodeChar c) (hb : b.toNat < 0x80) :
    encodeChar c = [b] := by
  have hv := toNat_valid c
  unfold encodeChar at h ⊢
  simp only at h ⊢
  split at h
  · next hc =>
    rw [if_pos hc, List.mem_singleton.1 h]
  · exfalso
    split at h
    · simp only [List.mem_cons, List.not_mem_nil, or_false] at h
      rcases h with rfl | rfl <;> simp at hb <;> omega
    · split at h
      · simp only [List.mem_cons, List.not_mem_nil, or_false] at h
        rcases h with rfl | rfl | rfl <;> simp at hb <;> omega
      · simp only [List.mem_cons, List.not_mem_nil, or_false] at h
        rcases h with rfl | rfl | rfl | rfl <;> simp at hb <;> omega

/-- In front of a byte below 128 a character ends. -/
theorem exists_encodeChars_front {xs ys : List UInt8} (hb : b.toNat < 0x80)
    (h : encodeChars cs = xs ++ b :: ys) : ∃ front, xs = encodeChars front := by
  induction cs generalizing xs with
  | nil => simp [encodeChars] at h
  | cons c cs ih =>
    rw [encodeChars, List.flatMap_cons] at h
    rcases List.append_eq_append_iff.1 h with ⟨more, rfl, hcs⟩ | ⟨inside, hc, hbys⟩
    · obtain ⟨front, rfl⟩ := ih hcs
      exact ⟨c :: front, rfl⟩
    · cases inside with
      | nil => exact ⟨[c], by simpa [encodeChars] using hc.symm⟩
      | cons d inside =>
        -- the byte stands in the character, so nothing of the character stands before it
        obtain ⟨rfl, -⟩ := List.cons.inj hbys
        rw [encodeChar_of_mem (by simp [hc]) hb] at hc
        obtain ⟨rfl, -⟩ := List.singleton_eq_append_iff.1 hc |>.resolve_right (by simp)
        exact ⟨[], rfl⟩

/-- **A character that is cut off stays so, whatever text is written behind it.** -/
theorem decode?_append_eq_none {s : String} (h : decode? bytes = none)
    (hs : s = "" ∨ ∃ c rest, s.toList = c :: rest ∧ c.toNat < 0x80) :
    decode? (bytes ++ encode s) = none := by
  rcases hs with rfl | ⟨c, rest, hs, hc⟩
  · rwa [show encode "" = [] from rfl, List.append_nil]
  · by_contra hne
    obtain ⟨text, ht⟩ := Option.ne_none_iff_exists'.1 hne
    have hsplit := decode?_eq_some_iff.1 ht
    have hbytes : encode s = .ofNat c.toNat :: encodeChars rest := by
      simp [encode, hs, encodeChars, encodeChar, hc]
    rw [hbytes] at hsplit
    obtain ⟨front, rfl⟩ := exists_encodeChars_front (by simp; omega) hsplit.symm
    have hfront := decode?_encode (String.ofList front)
    rw [encode, String.toList_ofList, h] at hfront
    cases hfront

end NearDup.Text.Utf8
