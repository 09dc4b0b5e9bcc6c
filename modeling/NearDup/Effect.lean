/-!
# Changes that can fail

A computation that changes a state and can fail. A failure ends it, and the state is left as it was
reached by then; nothing is taken back.

## Main definitions

* `Effect` — such computations, with the error and the state as parameters
* `perform` — the result and the state reached from a given state
* `change`, `inspect` — one step that replaces, or only looks at, the state
* `within` — a computation on a part of the state
-/

namespace NearDup

/-- A computation on a state of type `σ` that can fail with an error of type `ε`. -/
abbrev Effect (ε σ : Type) := ExceptT ε (StateM σ)

namespace Effect

variable {ε δ σ τ α β : Type}

/-- What a computation makes of a state. -/
def perform (x : Effect ε σ α) (s : σ) : Except ε α × σ := StateT.run (ExceptT.run x) s

/-- The computation that makes this of each state. -/
def ofPerform (f : σ → Except ε α × σ) : Effect ε σ α := ExceptT.mk fun s => f s

/-- Replaces the state, or fails and leaves it. -/
def change (f : σ → Except ε σ) : Effect ε σ Unit :=
  ofPerform fun s => match f s with
    | .ok s' => (.ok (), s')
    | .error e => (.error e, s)

/-- Looks at the state. -/
def inspect (f : σ → Except ε α) : Effect ε σ α := ofPerform fun s => (f s, s)

/-- The same computation, with another view of its error. -/
def mapError (g : ε → δ) (x : Effect ε σ α) : Effect δ σ α :=
  ofPerform fun s => match x.perform s with
    | (.ok a, s) => (.ok a, s)
    | (.error e, s) => (.error (g e), s)

/-- A computation on a part of the state. -/
def within (part : σ → τ) (put : σ → τ → σ) (x : Effect ε τ α) : Effect ε σ α :=
  ofPerform fun s =>
    let (result, t) := x.perform (part s)
    (result, put s t)

/-! ## What they make of a state -/

@[simp] theorem perform_ofPerform (f : σ → Except ε α × σ) (s : σ) :
    (ofPerform f).perform s = f s :=
  rfl

@[simp] theorem perform_pure (a : α) (s : σ) : (pure a : Effect ε σ α).perform s = (.ok a, s) := rfl

@[simp] theorem perform_throw (e : ε) (s : σ) :
    (throw e : Effect ε σ α).perform s = (.error e, s) := rfl

@[simp] theorem perform_get (s : σ) : (get : Effect ε σ σ).perform s = (.ok s, s) := rfl

@[simp] theorem perform_set (s' s : σ) : (set s' : Effect ε σ Unit).perform s = (.ok (), s') := rfl

@[simp] theorem perform_modify (f : σ → σ) (s : σ) :
    (modify f : Effect ε σ Unit).perform s = (.ok (), f s) := rfl

@[simp] theorem perform_modifyGet (f : σ → α × σ) (s : σ) :
    (modifyGet f : Effect ε σ α).perform s = (.ok (f s).1, (f s).2) := rfl

@[simp] theorem perform_inspect (f : σ → Except ε α) (s : σ) :
    (inspect f).perform s = (f s, s) := rfl

@[simp] theorem perform_within (part : σ → τ) (put : σ → τ → σ) (x : Effect ε τ α) (s : σ) :
    (x.within part put).perform s =
      ((x.perform (part s)).1, put s (x.perform (part s)).2) := rfl

/-- A sequence goes on after a result and ends with an error. -/
theorem perform_bind (x : Effect ε σ α) (f : α → Effect ε σ β) (s : σ) :
    (x >>= f).perform s = match x.perform s with
      | (.ok a, s') => (f a).perform s'
      | (.error e, s') => (.error e, s') := by
  have h : (x >>= f).perform s =
      (ExceptT.bindCont f (x.perform s).1 : StateM σ (Except ε β)) (x.perform s).2 := rfl
  rw [h]
  rcases x.perform s with ⟨_ | _, s'⟩ <;> rfl

theorem perform_map (f : α → β) (x : Effect ε σ α) (s : σ) :
    (f <$> x).perform s = ((x.perform s).1.map f, (x.perform s).2) := by
  have h : (f <$> x).perform s = (x >>= fun a => pure (f a)).perform s := by
    rw [map_eq_pure_bind]
  rw [h, perform_bind]
  rcases x.perform s with ⟨_ | _, s'⟩ <;> rfl

/-- A sequence ends well if its first part does and then the rest does. -/
theorem perform_bind_eq_ok {x : Effect ε σ α} {f : α → Effect ε σ β} {s s' : σ} {b : β} :
    (x >>= f).perform s = (.ok b, s') ↔
      ∃ a s₁, x.perform s = (.ok a, s₁) ∧ (f a).perform s₁ = (.ok b, s') := by
  rw [perform_bind]
  rcases x.perform s with ⟨_ | a, s₁⟩
  · simp
  · constructor
    · exact fun h => ⟨a, s₁, rfl, h⟩
    · rintro ⟨_, _, ⟨⟩, h⟩
      exact h

theorem perform_map_eq_ok {f : α → β} {x : Effect ε σ α} {s s' : σ} {b : β} :
    (f <$> x).perform s = (.ok b, s') ↔ ∃ a, x.perform s = (.ok a, s') ∧ b = f a := by
  rw [perform_map]
  rcases x.perform s with ⟨_ | a, s₁⟩
  · simp [Except.map]
  · constructor
    · rintro ⟨⟩
      exact ⟨a, rfl, rfl⟩
    · rintro ⟨_, ⟨⟩, rfl⟩
      rfl

end Effect

end NearDup
