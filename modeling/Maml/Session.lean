import Maml.Check

/-! Editing sessions.

A `Session` is a text that is checked again after every change. A `SessionStep`
changes the text by fixes of its diagnostics or by edits; if that cannot be done,
the text stays as it is. -/
namespace Maml

/-- A way to change a text. -/
inductive SessionStep where
  /-- Apply a fix of a diagnostic, both by index. -/
  | fix (diagnostic fix : Nat)
  /-- Apply the fix at an index of the first diagnostic that has so many. -/
  | first (fix : Nat)
  /-- Apply the fixes at an index of all diagnostics that have so many, at once. -/
  | all (fix : Nat)
  /-- Apply edits. -/
  | edit (edits : List Edit)
  deriving DecidableEq, Repr

/-- A text and what is wrong with it. -/
structure Session where
  options : ValidationOptions
  source : Text
  deriving DecidableEq, Repr

namespace Session

/-- What is wrong with the text. -/
def diagnostics (s : Session) : List Diagnostic := check s.options s.source

def edits? (s : Session) : SessionStep → Option (List Edit)
  | .fix i j => do
    let d ← s.diagnostics[i]?
    let f ← d.fixes[j]?
    return f.edits
  | .first j => (s.diagnostics.findSome? (·.fixes[j]?)).map Fix.edits
  | .all j => some ((s.diagnostics.filterMap (·.fixes[j]?)).flatMap Fix.edits)
  | .edit edits => some edits

/-- Whether a step was taken. -/
inductive Outcome where
  | done
  | noSuchFix
  | failed (fault : Fault)
  deriving DecidableEq, Repr

/-- The session after a step, and whether the step was taken. -/
def step (s : Session) (action : SessionStep) : Outcome × Session :=
  match s.edits? action with
  | none => (.noSuchFix, s)
  | some edits =>
    match applyEdits s.source edits with
    | .ok source => (.done, { s with source })
    | .error e => (.failed e, s)

end Session

end Maml
