import Mathlib
import NearDup.Tree.Resolve

/-!
# Walks through trees

A walk looks at one location after the other. What it finds depends on nothing else, so two trees
that agree on these locations lead a path to the same place, and where they do not agree there is a
first location that tells them apart.

* `stage_induction` — the recursion of a walk: the next name, or the target of a link
* `walk_eq_of_reaches` — a walk ends where every stage of it ends
* `walk_ends` — the last location of a walk is where it ends
* `walk_behind_file` — nothing lies behind a file
* `walk_refuel` — the number of links that may be followed does not change where a walk ends
* `walk_opened_of_vacant` — a file can be opened where a walk comes to a free name
* `first_difference` — a walk goes the same way in two trees, or comes to where they differ
-/

namespace NearDup.Tree

variable {t : Tree} {e : Ending} {n : Nat} {here : Location} {name target : String}
  {rest : List String}

/-! ## One name -/

/-- A name that is looked up in the directory where the walk is. -/
structure LooksUp (e : Ending) (name : String) (rest : List String) : Prop where
  significant : ¬(name = "" ∨ name = ".")
  not_up : name ≠ ".."
  not_slash : ¬(e = .opened ∧ endsInSlash rest = true)
  short : ¬nameLimit < Text.Utf8.size name

/-- How a walk goes on at a link. -/
def onLink (t : Tree) (e : Ending) : Nat → Location → List String → Except Fault Place
  | 0, _, _ => .error .tooManyLinks
  | n + 1, here, names => t.walk e n here names

theorem walk_eq_walkNames (t : Tree) (e : Ending) (n : Nat) :
    t.walk e n = t.walkNames e (t.onLink e n) := by
  cases n <;> rfl

@[simp] theorem walk_nil : t.walk e n here [] = .ok (.entry here .dir) := by
  rw [walk_eq_walkNames]
  rfl

theorem walk_skip (h : name = "" ∨ name = ".") :
    t.walk e n here (name :: rest) = t.walk e n here rest := by
  rw [walk_eq_walkNames, walkNames, if_pos h]

theorem walk_up (h : name = "..") :
    t.walk e n here (name :: rest) = t.walk e n (up here) rest := by
  subst h
  rw [walk_eq_walkNames, walkNames, if_neg (by decide), if_pos rfl]

/-- A name that is neither passed over nor looked up is refused, whatever the tree is. -/
theorem walk_refused (h₁ : ¬(name = "" ∨ name = ".")) (h₂ : name ≠ "..")
    (h : ¬LooksUp e name rest) :
    ∃ f, ∀ (t : Tree) n here, t.walk e n here (name :: rest) = .error f := by
  by_cases h₃ : e = .opened ∧ endsInSlash rest = true
  · refine ⟨.isDirectory, fun t n here => ?_⟩
    rw [walk_eq_walkNames, walkNames, if_neg h₁, if_neg h₂, if_pos h₃]
  · by_cases h₄ : nameLimit < Text.Utf8.size name
    · refine ⟨.nameTooLong, fun t n here => ?_⟩
      rw [walk_eq_walkNames, walkNames, if_neg h₁, if_neg h₂, if_neg h₃, if_pos h₄]
    · exact absurd ⟨h₁, h₂, h₃, h₄⟩ h

theorem walk_lookUp (h : LooksUp e name rest) :
    t.walk e n here (name :: rest) = match t.get? (here ++ [name]) with
      | none => if rest = [] then .ok (.vacant (here ++ [name])) else .error .noEntry
      | some .dir => t.walk e n (here ++ [name]) rest
      | some (.file bytes) =>
        if rest = [] then .ok (.entry (here ++ [name]) (.file bytes)) else .error .notDirectory
      | some (.link target) =>
        if rest = [] ∧ e = .kept then .ok (.entry (here ++ [name]) (.link target))
        else t.onLink e n (origin here target) (pathNames target ++ rest) := by
  rw [walk_eq_walkNames, walkNames]
  exact (if_neg h.significant).trans <| (if_neg h.not_up).trans <|
    (if_neg h.not_slash).trans (if_neg h.short)

theorem walk_free (h : LooksUp e name rest) (hg : t.get? (here ++ [name]) = none) :
    t.walk e n here (name :: rest) =
      if rest = [] then .ok (.vacant (here ++ [name])) else .error .noEntry := by
  rw [walk_lookUp h, hg]

theorem walk_dir (h : LooksUp e name rest) (hg : t.get? (here ++ [name]) = some .dir) :
    t.walk e n here (name :: rest) = t.walk e n (here ++ [name]) rest := by
  rw [walk_lookUp h, hg]

theorem walk_file {bytes : List UInt8} (h : LooksUp e name rest)
    (hg : t.get? (here ++ [name]) = some (.file bytes)) :
    t.walk e n here (name :: rest) =
      if rest = [] then .ok (.entry (here ++ [name]) (.file bytes)) else .error .notDirectory := by
  rw [walk_lookUp h, hg]

theorem walk_keptLink (h : LooksUp .kept name [])
    (hg : t.get? (here ++ [name]) = some (.link target)) :
    t.walk .kept n here [name] = .ok (.entry (here ++ [name]) (.link target)) := by
  rw [walk_lookUp h, hg]
  exact if_pos ⟨rfl, rfl⟩

theorem walk_link (h : LooksUp e name rest) (hg : t.get? (here ++ [name]) = some (.link target))
    (hk : ¬(rest = [] ∧ e = .kept)) :
    t.walk e n here (name :: rest) =
      t.onLink e n (origin here target) (pathNames target ++ rest) := by
  rw [walk_lookUp h, hg]
  exact if_neg hk

/-- What is looked up at the end of a path may also be looked up on the way, links followed. -/
theorem LooksUp.followed (h : LooksUp e name rest) (rest' : List String) :
    LooksUp .followed name rest' :=
  ⟨h.significant, h.not_up, by simp, h.short⟩

/-- The recursion of a walk: from a name to those behind it, and from a link to its target with one
link less to follow. -/
theorem walk_induction {P : Nat → Location → List String → Prop}
    (nil : ∀ n here, P n here [])
    (cons : ∀ n here name rest, (∀ here', P n here' rest) →
      (∀ k here' names, n = k + 1 → P k here' names) → P n here (name :: rest))
    (n : Nat) (here : Location) (names : List String) : P n here names := by
  induction n generalizing here names with
  | zero =>
    induction names generalizing here with
    | nil => exact nil 0 here
    | cons name rest ih => exact cons 0 here name rest ih (by simp)
  | succ n ihn =>
    induction names generalizing here with
    | nil => exact nil (n + 1) here
    | cons name rest ih =>
      refine cons (n + 1) here name rest ih (fun k here' names hk => ?_)
      cases hk
      exact ihn here' names

/-! ## Stages -/

/-- How far a walk is: the links it may still follow, the directory where it is, and the names that
are left. -/
structure Stage where
  links : Nat
  here : Location
  names : List String

/-- One step of a walk. -/
inductive Advances (t : Tree) (e : Ending) : Stage → Stage → Prop
  | skip {n : Nat} {here : Location} {name : String} {rest : List String}
    (h : name = "" ∨ name = ".") : Advances t e ⟨n, here, name :: rest⟩ ⟨n, here, rest⟩
  | up {n : Nat} {here : Location} {name : String} {rest : List String}
    (h : name = "..") : Advances t e ⟨n, here, name :: rest⟩ ⟨n, Tree.up here, rest⟩
  | dir {n : Nat} {here : Location} {name : String} {rest : List String}
    (h : LooksUp e name rest) (hg : t.get? (here ++ [name]) = some .dir) :
    Advances t e ⟨n, here, name :: rest⟩ ⟨n, here ++ [name], rest⟩
  | link {n : Nat} {here : Location} {name target : String} {rest : List String}
    (h : LooksUp e name rest) (hg : t.get? (here ++ [name]) = some (.link target))
    (hk : ¬(rest = [] ∧ e = .kept)) :
    Advances t e ⟨n + 1, here, name :: rest⟩
      ⟨n, origin here target, pathNames target ++ rest⟩

/-- One stage of a walk comes before another, or is the same. -/
abbrev Reaches (t : Tree) (e : Ending) : Stage → Stage → Prop :=
  Relation.ReflTransGen (t.Advances e)

theorem walk_eq_of_advances {a b : Stage} (h : t.Advances e a b) :
    t.walk e a.links a.here a.names = t.walk e b.links b.here b.names := by
  cases h with
  | skip h => exact walk_skip h
  | up h => exact walk_up h
  | dir h hg => exact walk_dir h hg
  | link h hg hk => exact walk_link h hg hk

/-- A walk ends where every stage of it ends. -/
theorem walk_eq_of_reaches {a b : Stage} (h : t.Reaches e a b) :
    t.walk e a.links a.here a.names = t.walk e b.links b.here b.names := by
  induction h with
  | refl => rfl
  | tail _ hs ih => exact ih.trans (walk_eq_of_advances hs)

/-- A walk with links followed goes through every stage of one that ends otherwise. -/
theorem Reaches.followed {a b : Stage} (h : t.Reaches e a b) : t.Reaches .followed a b := by
  induction h with
  | refl => exact .refl
  | tail _ hs ih =>
    refine ih.tail ?_
    cases hs with
    | skip h => exact .skip h
    | up h => exact .up h
    | dir h hg => exact .dir (h.followed _) hg
    | link h hg hk => exact .link (h.followed _) hg (by simp)

/-- Each stage of a walk has a property if it follows from the next stage. -/
theorem stage_induction {P : Stage → Prop} (step : ∀ a, (∀ b, t.Advances e a b → P b) → P a)
    (a : Stage) : P a := by
  obtain ⟨n, here, names⟩ := a
  induction n, here, names using walk_induction with
  | nil n here =>
    refine step _ (fun b h => ?_)
    cases h
  | cons n here name rest ih ihl =>
    refine step _ (fun b h => ?_)
    cases h with
    | skip h => exact ih here
    | up h => exact ih (Tree.up here)
    | dir h hg => exact ih (here ++ [name])
    | link h hg hk => exact ihl _ _ _ rfl

/-- What a place is called where a walk ends. -/
def placeAt (t : Tree) (loc : Location) : Place :=
  match t.get? loc with
  | some e => .entry loc e
  | none => .vacant loc

/-- A walk goes on, or ends in a directory, in a fault, or at its last name. -/
theorem stage_cases (t : Tree) (e : Ending) (a : Stage) :
    (∃ b, t.Advances e a b) ∨ a.names = [] ∨
    (∃ f, t.walk e a.links a.here a.names = .error f) ∨
    ∃ name, a.names = [name] ∧ LooksUp e name [] ∧
      ∀ n, t.walk e n a.here a.names = .ok (t.placeAt (a.here ++ [name])) := by
  obtain ⟨n, here, names⟩ := a
  cases names with
  | nil => exact Or.inr (Or.inl rfl)
  | cons name rest =>
    by_cases h₁ : name = "" ∨ name = "."
    · exact Or.inl ⟨_, .skip h₁⟩
    by_cases h₂ : name = ".."
    · exact Or.inl ⟨_, .up h₂⟩
    by_cases h : ¬LooksUp e name rest
    · obtain ⟨f, hf⟩ := walk_refused h₁ h₂ h
      exact Or.inr (Or.inr (Or.inl ⟨f, hf t n here⟩))
    have h : LooksUp e name rest := Classical.not_not.1 h
    simp only [placeAt]
    cases hg : t.get? (here ++ [name]) with
    | none =>
      right; right
      by_cases hr : rest = []
      · subst hr
        exact Or.inr ⟨name, rfl, h, fun n => by simp [walk_free h hg, hg]⟩
      · exact Or.inl ⟨_, (walk_free h hg).trans (if_neg hr)⟩
    | some x =>
      cases x with
      | dir => exact Or.inl ⟨_, .dir h hg⟩
      | file bytes =>
        right; right
        by_cases hr : rest = []
        · subst hr
          exact Or.inr ⟨name, rfl, h, fun n => by simp [walk_file h hg, hg]⟩
        · exact Or.inl ⟨_, (walk_file h hg).trans (if_neg hr)⟩
      | link target =>
        by_cases hk : rest = [] ∧ e = .kept
        · obtain ⟨rfl, rfl⟩ := hk
          exact Or.inr (Or.inr (Or.inr ⟨name, rfl, h, fun n => by simp [walk_keptLink h hg, hg]⟩))
        cases n with
        | zero => exact Or.inr (Or.inr (Or.inl ⟨_, walk_link h hg hk⟩))
        | succ n => exact Or.inl ⟨_, .link h hg hk⟩

/-- A walk that leads somewhere ends in a directory or with a last name that is looked up. -/
theorem walk_ends {a : Stage} {place : Place} (h : t.walk e a.links a.here a.names = .ok place) :
    (∃ loc, place = .entry loc .dir) ∨ ∃ m dir name, LooksUp e name [] ∧
      place = t.placeAt (dir ++ [name]) ∧ t.Reaches e a ⟨m, dir, [name]⟩ := by
  induction a using stage_induction (t := t) (e := e) with
  | step a ih =>
    rcases stage_cases t e a with ⟨b, hb⟩ | hnil | ⟨f, hf⟩ | ⟨name, hn, hl, hw⟩
    · rw [walk_eq_of_advances hb] at h
      rcases ih b hb h with hdir | ⟨m, dir, name, hl, hp, hr⟩
      · exact Or.inl hdir
      · exact Or.inr ⟨m, dir, name, hl, hp, hr.head hb⟩
    · rw [hnil, walk_nil] at h
      cases h
      exact Or.inl ⟨a.here, rfl⟩
    · rw [hf] at h
      cases h
    · rw [hw] at h
      cases h
      refine Or.inr ⟨a.links, a.here, name, hl, rfl, ?_⟩
      rw [← hn]

/-- On the way to a file there is a last name, which is not looked through when links are kept. -/
theorem walk_kept_of_file {a : Stage} {loc : Location} {bytes : List UInt8}
    (h : t.walk .followed a.links a.here a.names = .ok (.entry loc (.file bytes))) :
    ∃ m dir name x, t.get? (dir ++ [name]) = some x ∧ x ≠ .dir ∧ LooksUp .kept name [] ∧
      t.Reaches .kept a ⟨m, dir, [name]⟩ := by
  induction a using stage_induction (t := t) (e := .followed) with
  | step a ih =>
    rcases stage_cases t .followed a with ⟨b, hb⟩ | hnil | ⟨f, hf⟩ | ⟨name, hn, hl, hw⟩
    · rw [walk_eq_of_advances hb] at h
      have hb' := ih b hb h
      cases hb with
      | skip hs =>
        obtain ⟨m, dir, name, x, hg, hx, hl, hr⟩ := hb'
        exact ⟨m, dir, name, x, hg, hx, hl, hr.head (.skip hs)⟩
      | up hs =>
        obtain ⟨m, dir, name, x, hg, hx, hl, hr⟩ := hb'
        exact ⟨m, dir, name, x, hg, hx, hl, hr.head (.up hs)⟩
      | @dir n here name rest hs hg' =>
        obtain ⟨m, dir, name, x, hg, hx, hl, hr⟩ := hb'
        refine ⟨m, dir, name, x, hg, hx, hl, hr.head (.dir ?_ hg')⟩
        exact ⟨hs.significant, hs.not_up, by simp, hs.short⟩
      | @link n here name target rest hs hg' hk =>
        have hs' : LooksUp .kept name rest := ⟨hs.significant, hs.not_up, by simp, hs.short⟩
        by_cases hr : rest = []
        · subst hr
          exact ⟨n + 1, here, name, _, hg', by simp, hs', .refl⟩
        · obtain ⟨m, dir, name, x, hg, hx, hl, hr'⟩ := hb'
          exact ⟨m, dir, name, x, hg, hx, hl, hr'.head (.link hs' hg' (by simp [hr]))⟩
    · rw [hnil, walk_nil] at h
      cases h
    · rw [hf] at h
      cases h
    · rw [hw] at h
      obtain ⟨n, here, names⟩ := a
      subst hn
      simp only [placeAt] at h
      split at h
      · next x hg =>
        cases h
        exact ⟨n, here, name, _, hg, by simp, ⟨hl.significant, hl.not_up, by simp, hl.short⟩, .refl⟩
      · cases h

/-- Behind a file there is nothing: names that lead to one lead nowhere with further names, however
many links may be followed. -/
theorem walk_behind_file {a : Stage} {loc : Location} {bytes : List UInt8}
    (h : t.walk .followed a.links a.here a.names = .ok (.entry loc (.file bytes)))
    {m : Nat} {rest : List String} {place : Place}
    (h' : t.walk .followed m a.here (a.names ++ rest) = .ok place) :
    rest = [] ∧ place = .entry loc (.file bytes) := by
  induction a using stage_induction (t := t) (e := .followed) generalizing m with
  | step a ih =>
    rcases stage_cases t .followed a with ⟨b, hb⟩ | hnil | ⟨f, hf⟩ | ⟨name, hn, hl, hw⟩
    · rw [walk_eq_of_advances hb] at h
      have hb' := fun m h' => ih b hb h (m := m) h'
      cases hb with
      | skip hs => exact hb' m (by rwa [List.cons_append, walk_skip hs] at h')
      | up hs => exact hb' m (by rwa [List.cons_append, walk_up hs] at h')
      | dir hs hg =>
        exact hb' m (by rwa [List.cons_append, walk_dir (hs.followed _) hg] at h')
      | link hs hg hk =>
        rw [List.cons_append, walk_link (hs.followed _) hg (by simp)] at h'
        cases m with
        | zero => cases h'
        | succ m => exact hb' m (by simpa only [onLink, List.append_assoc] using h')
    · rw [hnil, walk_nil] at h
      cases h
    · rw [hf] at h
      cases h
    · obtain ⟨n, here, names⟩ := a
      subst hn
      rw [hw] at h
      simp only [placeAt] at h
      split at h
      · next x hg =>
        cases h
        rw [List.cons_append, walk_file (hl.followed _) hg] at h'
        split at h'
        · next hr =>
          cases h'
          exact ⟨hr, rfl⟩
        · cases h'
      · cases h

/-- How many links may be followed matters only to a walk that meets too many. -/
theorem walk_refuel {a : Stage} {place : Place}
    (h : t.walk .followed a.links a.here a.names = .ok place) (m : Nat) :
    t.walk .followed m a.here a.names = .ok place ∨
      t.walk .followed m a.here a.names = .error .tooManyLinks := by
  induction a using stage_induction (t := t) (e := .followed) generalizing m with
  | step a ih =>
    rcases stage_cases t .followed a with ⟨b, hb⟩ | hnil | ⟨f, hf⟩ | ⟨name, hn, hl, hw⟩
    · rw [walk_eq_of_advances hb] at h
      have hb' := ih b hb h
      cases hb with
      | skip hs =>
        rw [walk_skip hs]
        exact hb' m
      | up hs =>
        rw [walk_up hs]
        exact hb' m
      | dir hs hg =>
        rw [walk_dir hs hg]
        exact hb' m
      | link hs hg hk =>
        rw [walk_link hs hg hk]
        cases m with
        | zero => exact Or.inr rfl
        | succ m => exact hb' m
    · rw [hnil, walk_nil] at h ⊢
      exact Or.inl h
    · rw [hf] at h
      cases h
    · rw [hw] at h ⊢
      exact Or.inl h

/-- On the way to a directory there is something at every name, be it a link. -/
theorem walk_kept_of_dir {names behind : List String} {loc : Location}
    (h : t.walk .followed n here (names ++ behind) = .ok (.entry loc .dir)) :
    ∃ loc' x, t.walk .kept n here names = .ok (.entry loc' x) := by
  induction n, here, names using walk_induction with
  | nil n here => exact ⟨here, .dir, walk_nil⟩
  | cons n here name rest ih ihl =>
    rw [List.cons_append] at h
    by_cases h₁ : name = "" ∨ name = "."
    · rw [walk_skip h₁] at h ⊢
      exact ih here h
    by_cases h₂ : name = ".."
    · rw [walk_up h₂] at h ⊢
      exact ih (Tree.up here) h
    by_cases hl : ¬LooksUp .followed name (rest ++ behind)
    · obtain ⟨f, hf⟩ := walk_refused h₁ h₂ hl
      rw [hf] at h
      cases h
    have hl : LooksUp .followed name (rest ++ behind) := Classical.not_not.1 hl
    have hk : LooksUp .kept name rest := ⟨hl.significant, hl.not_up, by simp, hl.short⟩
    cases hg : t.get? (here ++ [name]) with
    | none =>
      rw [walk_free hl hg] at h
      split at h <;> cases h
    | some x =>
      cases x with
      | file bytes =>
        rw [walk_file hl hg] at h
        split at h <;> cases h
      | dir =>
        rw [walk_dir hl hg] at h
        rw [walk_dir hk hg]
        exact ih (here ++ [name]) h
      | link target =>
        by_cases hr : rest = []
        · subst hr
          exact ⟨_, _, walk_keptLink hk hg⟩
        · rw [walk_link hl hg (by simp), ← List.append_assoc] at h
          rw [walk_link hk hg (by simp [hr])]
          cases n with
          | zero => cases h
          | succ n => exact ihl n _ _ rfl h

/-- No path that ends in a slash leads to a free name. -/
theorem getLast?_ne_of_walk_vacant {a : Stage} {loc : Location}
    (h : t.walk .followed a.links a.here a.names = .ok (.vacant loc)) :
    a.names.getLast? ≠ some "" := by
  induction a using stage_induction (t := t) (e := .followed) with
  | step a ih =>
    rcases stage_cases t .followed a with ⟨b, hb⟩ | hnil | ⟨f, hf⟩ | ⟨name, hn, hl, -⟩
    · rw [walk_eq_of_advances hb] at h
      have hlast := ih b hb h
      -- what is left is not empty, since a walk that is over is in a directory
      have hne : b.names ≠ [] := by
        intro he
        rw [he, walk_nil] at h
        cases h
      cases hb with
      | skip hs => rwa [List.getLast?_cons_of_ne_nil hne]
      | up hs => rwa [List.getLast?_cons_of_ne_nil hne]
      | dir hs hg => rwa [List.getLast?_cons_of_ne_nil hne]
      | @link n here name target rest hs hg hk =>
        by_cases hr : rest = []
        · subst hr
          rw [List.getLast?_singleton]
          exact fun he => hs.significant (Or.inl (Option.some.inj he))
        · rwa [List.getLast?_cons_of_ne_nil hr, ← List.getLast?_append_of_ne_nil _ hr]
    · rw [hnil]
      simp
    · rw [hf] at h
      cases h
    · rw [hn, List.getLast?_singleton]
      exact fun he => hl.significant (Or.inl (Option.some.inj he))

theorem getLast?_of_endsInSlash (h : endsInSlash rest = true) : rest.getLast? = some "" := by
  simp only [endsInSlash, Bool.and_eq_true, decide_eq_true_eq, List.all_eq_true] at h
  obtain ⟨hne, hall⟩ := h
  rw [List.getLast?_eq_getLast_of_ne_nil hne, hall _ (List.getLast_mem hne)]

/-- A walk to a free name goes the same way when a file is to be opened there. -/
theorem walk_opened_of_vacant {a : Stage} {loc : Location}
    (h : t.walk .followed a.links a.here a.names = .ok (.vacant loc)) :
    t.walk .opened a.links a.here a.names = .ok (.vacant loc) := by
  induction a using stage_induction (t := t) (e := .followed) with
  | step a ih =>
    have hlast := getLast?_ne_of_walk_vacant h
    have hopened : ∀ name rest, a.names = name :: rest → LooksUp .followed name rest →
        LooksUp .opened name rest := by
      rintro name rest hnames hl
      refine ⟨hl.significant, hl.not_up, ?_, hl.short⟩
      rintro ⟨-, hslash⟩
      have hend := getLast?_of_endsInSlash hslash
      have hne : rest ≠ [] := by
        rintro rfl
        simp at hend
      rw [hnames, List.getLast?_cons_of_ne_nil hne] at hlast
      exact hlast hend
    rcases stage_cases t .followed a with ⟨b, hb⟩ | hnil | ⟨f, hf⟩ | ⟨name, hn, hl, hw⟩
    · rw [walk_eq_of_advances hb] at h
      have hb' : t.Advances .opened a b := by
        cases hb with
        | skip hs => exact .skip hs
        | up hs => exact .up hs
        | dir hs hg => exact .dir (hopened _ _ rfl hs) hg
        | link hs hg hk => exact .link (hopened _ _ rfl hs) hg (by simp)
      rw [walk_eq_of_advances hb']
      exact ih b hb h
    · rw [hnil, walk_nil] at h
      cases h
    · rw [hf] at h
      cases h
    · rw [hw] at h
      simp only [placeAt] at h
      split at h
      · cases h
      · next hg =>
        cases h
        rw [hn, walk_free (hopened name [] hn hl) hg, if_pos rfl]

/-! ## Two trees -/

/-- `u` is as `t` wherever `t'` is. -/
def AgreesWhere (t t' u : Tree) : Prop :=
  ∀ loc, t'.get? loc = t.get? loc → u.get? loc = t.get? loc

theorem AgreesWhere.left (t t' : Tree) : AgreesWhere t t' t := fun _ _ => rfl

theorem AgreesWhere.right (t t' : Tree) : AgreesWhere t t' t' := fun _ h => h

/-- From a stage on the walk is the same in two trees, or comes to the first location where they
differ; and so it does in every tree that differs from the first only where the second does. -/
def PartsLater (t t' : Tree) (e : Ending) (a : Stage) : Prop :=
  (∀ u, AgreesWhere t t' u →
    u.walk e a.links a.here a.names = t.walk e a.links a.here a.names) ∨
  ∃ m dir name rest, LooksUp e name rest ∧ t'.get? (dir ++ [name]) ≠ t.get? (dir ++ [name]) ∧
    ∀ u, AgreesWhere t t' u → u.Reaches e a ⟨m, dir, name :: rest⟩

/-- A step that is the same in all the trees does not matter. -/
theorem PartsLater.of_advances {t t' : Tree} {a b : Stage} (h : PartsLater t t' e b)
    (hstep : ∀ u, AgreesWhere t t' u → u.Advances e a b) : PartsLater t t' e a := by
  rcases h with hsame | ⟨m, dir, name, rest, hl, hd, hr⟩
  · refine Or.inl fun u hu => ?_
    rw [walk_eq_of_advances (hstep u hu), walk_eq_of_advances (hstep t (.left t t'))]
    exact hsame u hu
  · exact Or.inr ⟨m, dir, name, rest, hl, hd, fun u hu => (hr u hu).head (hstep u hu)⟩

/-- **A walk goes the same way in two trees, or comes to the first location where they differ.** -/
theorem first_difference (t t' : Tree) (e : Ending) (n : Nat) (here : Location)
    (names : List String) : PartsLater t t' e ⟨n, here, names⟩ := by
  induction n, here, names using walk_induction with
  | nil n here => exact Or.inl fun u _ => by simp
  | cons n here name rest ih ihl =>
    by_cases h₁ : name = "" ∨ name = "."
    · exact (ih here).of_advances fun u _ => .skip h₁
    by_cases h₂ : name = ".."
    · exact (ih (Tree.up here)).of_advances fun u _ => .up h₂
    by_cases h : ¬LooksUp e name rest
    · obtain ⟨f, hf⟩ := walk_refused h₁ h₂ h
      exact Or.inl fun u _ => by rw [hf, hf]
    have h : LooksUp e name rest := Classical.not_not.1 h
    by_cases hd : t'.get? (here ++ [name]) ≠ t.get? (here ++ [name])
    · exact Or.inr ⟨n, here, name, rest, h, hd, fun u _ => .refl⟩
    -- from here on the step is the same in all the trees, and depends on what is looked up
    have hu : ∀ u, AgreesWhere t t' u → u.get? (here ++ [name]) = t.get? (here ++ [name]) :=
      fun u hu => hu _ (Classical.not_not.1 hd)
    cases hg : t.get? (here ++ [name]) with
    | none =>
      refine Or.inl fun u hu' => ?_
      rw [walk_free h ((hu u hu').trans hg), walk_free h hg]
    | some x =>
      cases x with
      | file bytes =>
        refine Or.inl fun u hu' => ?_
        rw [walk_file h ((hu u hu').trans hg), walk_file h hg]
      | dir => exact (ih (here ++ [name])).of_advances fun u hu' => .dir h ((hu u hu').trans hg)
      | link target =>
        by_cases hk : rest = [] ∧ e = .kept
        · obtain ⟨rfl, rfl⟩ := hk
          refine Or.inl fun u hu' => ?_
          rw [walk_keptLink h ((hu u hu').trans hg), walk_keptLink h hg]
        cases n with
        | zero =>
          refine Or.inl fun u hu' => ?_
          rw [walk_link h ((hu u hu').trans hg) hk, walk_link h hg hk]
          rfl
        | succ n =>
          exact (ihl n (origin here target) (pathNames target ++ rest) rfl).of_advances
            fun u hu' => .link h ((hu u hu').trans hg) hk

end NearDup.Tree
