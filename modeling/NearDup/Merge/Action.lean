/-!
# Actions

What a merge session has done, or in a trial run would do, step by step; and the skips, which leave
everything as it is.
-/

namespace NearDup.Merge

inductive Action
  /-- Copies of a kept file were removed. -/
  | deduplicate (kept : String) (removed : List String)
  /-- Two files became one. -/
  | merge (file1 file2 output : String)
  /-- Any number of files became one. -/
  | fold (inputs : List String) (output : String)
  /-- One of the inputs was used up before. -/
  | skipConsumed (inputs : List String) (consumed : String)
  /-- The name of the output is taken. -/
  | skipCollision (inputs : List String) (output : String)
  /-- An input cannot be read. -/
  | skipUnreadable (file reason : String)
  deriving DecidableEq, Repr

namespace Action

/-- Does an action change files? -/
def changesFiles : Action → Bool
  | deduplicate _ _ | merge _ _ _ | fold _ _ => true
  | _ => false

/-- Does an action make a new document? -/
def makesDocument : Action → Bool
  | merge _ _ _ | fold _ _ => true
  | _ => false

/-- Every action either changes files or is a skip. -/
def isSkip (a : Action) : Bool := !a.changesFiles

end Action

/-- The actions of a run, in order. -/
structure Outcome where
  actions : List Action
  deriving DecidableEq, Repr

namespace Outcome

/-- How many documents were made. -/
def merged (o : Outcome) : Nat := o.actions.countP Action.makesDocument

/-- How many steps were skipped. -/
def skipped (o : Outcome) : Nat := o.actions.countP Action.isSkip

/-- Was any file changed? -/
def changed (o : Outcome) : Bool := o.actions.any Action.changesFiles

end Outcome

end NearDup.Merge
