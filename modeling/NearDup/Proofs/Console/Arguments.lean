import NearDup.Console.Arguments

/-!
# Options of a command line

The arguments are taken from left to right, and nothing that was found is given up again. So an
option that was read stays, whatever follows it. An argument that spells an option out is not taken
as the value of another one, because a value that stands alone does not begin with a dash, nor as a
file, because only behind two dashes alone is everything a file.

* `Found.Within` — the options found are still there
* `Command.takeArguments_within` — nothing that was found is given up
* `Command.isSet_of_takeArguments` — an option that is spelled out before two dashes alone is set
-/

namespace NearDup.Console

variable {c : Command} {f f' : Found} {pending pending' : Pending} {shape : OptionShape}
  {name value arg : String} {before args : List String}

/-- A sequence that gives something got there through its first part. -/
theorem exists_of_bind {ε α β : Type} {x : Except ε α} {g : α → Except ε β} {b : β}
    (h : (x >>= g) = .ok b) : ∃ a, x = .ok a ∧ g a = .ok b := by
  cases x with
  | error e => cases h
  | ok a => exact ⟨a, rfl, h⟩

/-! ## What was found -/

/-- Every option of the first is one of the second. -/
def Found.Within (f f' : Found) : Prop := ∀ name, f.isSet name = true → f'.isSet name = true

theorem Found.Within.refl (f : Found) : f.Within f := fun _ h => h

theorem Found.Within.trans {f₁ f₂ f₃ : Found} (h : f₁.Within f₂) (h' : f₂.Within f₃) :
    f₁.Within f₃ := fun name hset => h' name (h name hset)

theorem Found.isSet_iff : f.isSet name = true ↔ ∃ value, (name, value) ∈ f.options := by
  rw [isSet, value?, List.lookup_isSome_iff]
  constructor
  · rintro ⟨⟨name', value⟩, hmem, heq⟩
    rw [beq_iff_eq] at heq
    exact ⟨value, heq ▸ hmem⟩
  · rintro ⟨value, hmem⟩
    exact ⟨_, hmem, beq_self_eq_true name⟩

/-- An option that was added is there, with all the others. -/
theorem Found.add_eq_ok (h : f.add shape value = .ok f') :
    f'.isSet shape.name = true ∧ f.Within f' := by
  unfold Found.add at h
  split at h
  · cases h
  · cases h
    refine ⟨isSet_iff.2 ⟨value, by simp⟩, fun name hset => ?_⟩
    obtain ⟨value', hmem⟩ := isSet_iff.1 hset
    exact isSet_iff.2 ⟨value', by simp [hmem]⟩

namespace Command

/-! ## Nothing is given up -/

theorem settle_within (h : c.settle f pending = .ok f') : f.Within f' := by
  cases pending with
  | nothing =>
    cases h
    exact .refl f
  | waiting shape => cases h
  | valued shape value => exact (Found.add_eq_ok h).2
  | run files =>
    simp only [settle] at h
    split at h
    · split at h
      · cases h
        exact .refl f
      · cases h
    · cases h

/-- Adding an option and going on gives nothing up. -/
theorem add_bind_within {next : Found → Except Stop (Found × Pending)}
    (hnext : ∀ f₁, next f₁ = .ok (f', pending) → f₁.Within f')
    (h : (f.add shape value >>= next) = .ok (f', pending)) : f.Within f' := by
  obtain ⟨f₁, hadd, hrest⟩ := exists_of_bind h
  exact (Found.add_eq_ok hadd).2.trans (hnext f₁ hrest)

theorem pure_within {f₁ : Found} {pending₁ : Pending}
    (h : (pure (f₁, pending₁) : Except Stop _) = .ok (f', pending)) : f₁.Within f' := by
  cases h
  exact .refl f'

theorem takeLetters_within {letters : List Char}
    (h : c.takeLetters f letters = .ok (f', pending)) : f.Within f' := by
  induction letters generalizing f with
  | nil => exact pure_within h
  | cons letter rest ih =>
    simp only [takeLetters] at h
    split at h
    · cases h
    · split at h
      · -- a letter without a value: the next letters follow
        exact add_bind_within (fun _ => ih) h
      · split at h
        · exact pure_within h
        · exact add_bind_within (fun _ => pure_within) h

theorem takeNamed_within {cs : List Char} (h : c.takeNamed f cs = .ok (f', pending)) :
    f.Within f' := by
  simp only [takeNamed] at h
  split at h
  · cases h
  · split at h
    · exact add_bind_within (fun _ => pure_within) h
    · exact pure_within h
    · exact add_bind_within (fun _ => pure_within) h
    · cases h

theorem takeDashed_within (h : c.takeDashed f arg = .ok (f', pending)) : f.Within f' := by
  unfold takeDashed at h
  split at h
  · exact takeNamed_within h
  · exact takeLetters_within h
  · cases h

theorem takeFile_within (h : c.takeFile f pending arg = .ok (f', pending')) : f.Within f' := by
  unfold takeFile at h
  split at h
  · exact pure_within h
  · obtain ⟨f₁, hs, hrest⟩ := exists_of_bind h
    split at hrest
    · cases hrest
    · exact (settle_within hs).trans (pure_within hrest)

theorem takeFiles_within (h : c.takeFiles f pending args = .ok f') : f.Within f' := by
  induction args generalizing f pending with
  | nil => exact settle_within h
  | cons file rest ih =>
    obtain ⟨⟨f₁, pending₁⟩, hf, hrest⟩ := exists_of_bind h
    exact (takeFile_within hf).trans (ih hrest)

/-- How the arguments go on behind the first one. -/
theorem takeArguments_cons (h : c.takeArguments f pending (arg :: args) = .ok f') :
    (arg = "--" ∧ c.takeFiles f pending args = .ok f') ∨
    (arg ≠ "--" ∧ ∃ f₁ pending₁, f.Within f₁ ∧ c.takeArguments f₁ pending₁ args = .ok f' ∧
      (isDashed arg = true → ∃ f₀, c.takeDashed f₀ arg = .ok (f₁, pending₁))) := by
  simp only [takeArguments] at h
  split at h
  · next hdashes => exact Or.inl ⟨hdashes, h⟩
  · next hdashes =>
    refine Or.inr ⟨hdashes, ?_⟩
    split at h
    · obtain ⟨f₀, hs, h⟩ := exists_of_bind h
      obtain ⟨⟨f₁, pending₁⟩, hd, hrest⟩ := exists_of_bind h
      have hwithin := (settle_within hs).trans (takeDashed_within hd)
      exact ⟨f₁, pending₁, hwithin, hrest, fun _ => ⟨f₀, hd⟩⟩
    · next hplain =>
      split at h
      · exact ⟨f, _, .refl f, h, fun hd => absurd hd hplain⟩
      · obtain ⟨⟨f₁, pending₁⟩, hf, hrest⟩ := exists_of_bind h
        exact ⟨f₁, pending₁, takeFile_within hf, hrest, fun hd => absurd hd hplain⟩

/-- **Nothing that was found is given up.** -/
theorem takeArguments_within (h : c.takeArguments f pending args = .ok f') : f.Within f' := by
  induction args generalizing f pending with
  | nil => exact settle_within h
  | cons arg rest ih =>
    rcases takeArguments_cons h with ⟨-, hfiles⟩ | ⟨-, f₁, pending₁, hwithin, hrest, -⟩
    · exact takeFiles_within hfiles
    · exact hwithin.trans (ih hrest)

/-! ## An option that is spelled out -/

/-- An option without a value is set by its name. -/
theorem isSet_of_takeNamed {cs : List Char} (hcs : splitEquals cs = (shape.name.toList, none))
    (hfind : c.options.find? (·.name.toList = shape.name.toList) = some shape)
    (hflag : shape.hasValue = false) (h : c.takeNamed f cs = .ok (f', pending)) :
    f'.isSet shape.name = true := by
  simp only [takeNamed, hcs, hfind, hflag] at h
  obtain ⟨f₁, hadd, hrest⟩ := exists_of_bind h
  cases hrest
  exact (Found.add_eq_ok hadd).1

/-- **An option that stands anywhere before two dashes alone is set**, if the command line is
accepted. -/
theorem isSet_of_takeArguments (hdashed : isDashed arg = true) (hne : arg ≠ "--")
    (hset : ∀ f f' pending, c.takeDashed f arg = .ok (f', pending) → f'.isSet name = true)
    (hb : "--" ∉ before) (h : c.takeArguments f pending (before ++ arg :: args) = .ok f') :
    f'.isSet name = true := by
  induction before generalizing f pending with
  | nil =>
    rcases takeArguments_cons h with ⟨heq, -⟩ | ⟨-, f₁, pending₁, -, hrest, htaken⟩
    · exact absurd heq hne
    · obtain ⟨f₀, hd⟩ := htaken hdashed
      exact takeArguments_within hrest name (hset f₀ f₁ pending₁ hd)
  | cons first rest ih =>
    rw [List.mem_cons, not_or] at hb
    rcases takeArguments_cons h with ⟨heq, -⟩ | ⟨-, f₁, pending₁, -, hrest, -⟩
    · exact absurd heq.symm hb.1
    · exact ih hb.2 hrest

end Command

end NearDup.Console
