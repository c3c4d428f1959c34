import Maml.ParseError
import Maml.Tree.Label

/-! The two containers.

Objects and arrays differ in their brackets, in what they hold and in the labels
of their nodes; a parser treats them alike otherwise. -/
namespace Maml

/-- A sort of container. -/
inductive Container where
  | object
  | array
  deriving DecidableEq, Repr

namespace Container

def opener : Container → TokenKind
  | object => .lBrace
  | array => .lBracket

def closer : Container → TokenKind
  | object => .rBrace
  | array => .rBracket

def nodeKind : Container → NodeKind
  | object => .object
  | array => .array

/-- The label of the node that holds what is in a container. -/
def listKind : Container → NodeKind
  | object => .members
  | array => .items

/-- What an error says is missing when a container is not closed. -/
def expectedCloser : Container → Expected
  | object => .rBrace
  | array => .rBracket

/-- What an error says is missing where an element of a container should be. -/
def expectedElement : Container → Expected
  | object => .key
  | array => .value

/-- How many containers may be nested in one another. -/
def maxDepth : Nat := 256

/-- What is said of every container is decided by going through both. -/
instance {P : Container → Prop} [DecidablePred P] : Decidable (∀ c, P c) :=
  decidable_of_iff (P object ∧ P array)
    ⟨fun h c => c.rec h.1 h.2, fun h => ⟨h object, h array⟩⟩

end Container

/-- The container a token opens. -/
def TokenKind.opens? : TokenKind → Option Container
  | .lBrace => some .object
  | .lBracket => some .array
  | _ => none

namespace Container

theorem opens?_eq_some {kind : TokenKind} {c : Container} :
    kind.opens? = some c ↔ kind = c.opener := by
  cases kind <;> cases c <;> decide

end Container

end Maml
