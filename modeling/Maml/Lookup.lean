import Maml.Check

/-! Finding values by paths.

A path of `PathStep`s leads from a document's value through members, by name, and items, by
index. -/
namespace Maml

/-- A step from a value into it. -/
inductive PathStep where
  /-- To the member with a name. -/
  | name (name : Text)
  /-- To the item at an index. -/
  | index (index : Nat)
  deriving DecidableEq, Repr

namespace View

/-- What a step finds in a value: the key of the member, and the value it leads to. -/
def Value.step (v : Value) : PathStep → Option Key × Option Value
  | .name name =>
    match (Value.object? v).bind (Object.get? · name) with
    | some m => (KeyValue.key? m, KeyValue.value? m)
    | none => (none, none)
  | .index i => (none, (Value.array? v).bind fun a => (Array.values a)[i]?)

/-- What each step of a path finds; nothing is found behind a value that is not there. -/
def walk (v : Option Value) : List PathStep → List (Option Key × Option Value)
  | [] => []
  | step :: steps =>
    let found := match v with
      | some v => Value.step v step
      | none => (none, none)
    found :: walk found.2 steps

end View

end Maml
