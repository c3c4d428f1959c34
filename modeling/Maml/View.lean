import Maml.Quoted
import Maml.Site

/-! Typed views of nodes.

A `View k` is a node of kind `k` in its place. Views find their parts by label
and accept any tree: a part that is missing is simply not found, so trees built
by hand can be viewed like those of a document. -/
namespace Maml

/-- A node of a kind, in its place. -/
structure View (kind : NodeKind) where
  offset : Nat
  /-- The slots in front of the node, nearest first. -/
  before : List (Option Text)
  children : List Tree

/-- A leaf in its place. -/
structure LeafView where
  offset : Nat
  label : Label
  text : Text
  deriving DecidableEq, Repr

namespace LeafView

def range (l : LeafView) : Span := ⟨l.offset, l.offset + l.text.size⟩

end LeafView

namespace Site

/-- A site as a node of a kind, if it is one. -/
def view? (kind : NodeKind) (s : Site) : Option (View kind) :=
  match s.tree with
  | .node label children =>
    if label = .node kind then some ⟨s.offset, s.before, children⟩ else none
  | .leaf .. => none

def leaf? (s : Site) : Option LeafView :=
  match s.tree with
  | .leaf label text => some ⟨s.offset, label, text⟩
  | .node .. => none

end Site

namespace View

variable {kind : NodeKind}

def site (v : View kind) : Site := ⟨v.offset, v.before, .node (.node kind) v.children⟩

def range (v : View kind) : Span := v.site.range

def text (v : View kind) : Text := v.site.tree.text

def parts (v : View kind) : List Site := Site.row v.offset v.before v.children

/-- The first child that is a node of a kind. -/
def first? (k : NodeKind) (v : View kind) : Option (View k) := v.parts.findSome? (·.view? k)

def all (k : NodeKind) (v : View kind) : List (View k) := v.parts.filterMap (·.view? k)

def leaves (v : View kind) : List LeafView := v.parts.filterMap (·.leaf?)

/-- The first child that is a leaf and not trivia. -/
def significantLeaf? (v : View kind) : Option LeafView := v.leaves.find? (!·.label.isTrivia)

/-- Whether the last leaf is a token of a kind. -/
def endsWith (v : View kind) (token : TokenKind) : Bool :=
  match v.site.tree.lastLeaf? with
  | some (label, _) => label == .token token
  | none => false

/-! ## The kinds of views -/

abbrev File := View .file
abbrev Value := View .value
abbrev Object := View .object
abbrev Members := View .members
abbrev KeyValue := View .keyValue
abbrev IncompleteKeyValue := View .incompleteKeyValue
abbrev Key := View .key
abbrev Array := View .array
abbrev Items := View .items
abbrev InvalidValue := View .invalidValue
abbrev Skipped := View .error

/-! ### Files -/

/-- The value of a document, if it has one. -/
def File.value? (f : File) : Option Value := f.first? .value

/-- What was skipped behind the value. -/
def File.skipped (f : File) : List Skipped := f.all .error

/-! ### Values -/

/-- What a value is. -/
inductive Content where
  | object (v : Object)
  | array (v : Array)
  | string (l : LeafView)
  | multilineString (l : LeafView)
  | number (l : LeafView)
  | trueWord
  | falseWord
  | nullWord
  | invalid (v : InvalidValue)
  /-- The node is not formed like a value. -/
  | missing

/-- What a value is that consists of a leaf. -/
def Content.ofLeaf (l : LeafView) : Content :=
  match l.label with
  | .token .string => .string l
  | .token .multilineString => .multilineString l
  | .token .number => .number l
  | .token .trueWord => .trueWord
  | .token .falseWord => .falseWord
  | .token .nullWord => .nullWord
  | _ => .missing

/-- What a value is whose first node is given. -/
def Content.ofNode (s : Site) : Content :=
  match s.view? .object, s.view? .array, s.view? .invalidValue with
  | some v, _, _ => .object v
  | _, some v, _ => .array v
  | _, _, some v => .invalid v
  | none, none, none => .missing

/-- What a value is: its first node decides, or else its first significant leaf. -/
def Value.content (v : Value) : Content :=
  match v.parts.find? (·.tree.isNode) with
  | some s => .ofNode s
  | none =>
    match v.significantLeaf? with
    | some l => .ofLeaf l
    | none => .missing

def Value.object? (v : Value) : Option Object := v.first? .object

def Value.array? (v : Value) : Option Array := v.first? .array

/-- What a string value means. -/
def Value.string? (v : Value) : Option Text :=
  match v.content with
  | .string l => some (Quoted.unescape l.text)
  | .multilineString l => some (Quoted.stripTripleQuotes l.text)
  | _ => none

/-- Whether a value is not one. -/
def Value.isInvalid (v : Value) : Bool :=
  match v.content with
  | .invalid _ | .missing => true
  | _ => false

/-! ### Keys -/

/-- The token of a key. -/
def Key.leaf? (k : Key) : Option LeafView := k.significantLeaf?

def Key.isQuoted (k : Key) : Bool :=
  match Key.leaf? k with
  | some l => l.label == .token .string
  | none => false

/-- The name by which keys are compared: what stands between the quotes, as it is written. -/
def Key.name (k : Key) : Text :=
  match Key.leaf? k with
  | some l =>
    if l.label = .token .unterminatedString then l.text.dropWhile (· == '"')
    else Quoted.stripQuotes l.text
  | none => []

/-- The name that a key means. -/
def Key.meaning (k : Key) : Text :=
  match Key.leaf? k with
  | some l => if l.label = .token .string then Quoted.unescape l.text else l.text
  | none => []

/-- Whether a key could do without quotes. -/
def Key.canBeBare (k : Key) : Bool := Quoted.isBareKey (Key.meaning k)

/-! ### Members -/

def KeyValue.key? (v : KeyValue) : Option Key := v.first? .key

def KeyValue.value? (v : KeyValue) : Option Value := v.first? .value

/-- Whether the value is missing. -/
def KeyValue.isIncomplete (v : KeyValue) : Bool := (KeyValue.value? v).isNone

def KeyValue.name? (v : KeyValue) : Option Text := (KeyValue.key? v).map Key.name

def IncompleteKeyValue.key? (v : IncompleteKeyValue) : Option Key := v.first? .key

def Members.keyValues (v : Members) : List KeyValue := v.all .keyValue

def Members.incomplete (v : Members) : List IncompleteKeyValue := v.all .incompleteKeyValue

def Members.commas (v : Members) : List LeafView := v.leaves.filter (·.label == .token .comma)

/-! ### Containers -/

def Object.members? (v : Object) : Option Members := v.first? .members

/-- The members of an object that have a key and a colon. -/
def Object.keyValues (v : Object) : List KeyValue :=
  (Object.members? v).toList.flatMap Members.keyValues

/-- The first member of an object with a given name. -/
def Object.get? (v : Object) (name : Text) : Option KeyValue :=
  (Object.keyValues v).find? fun m => KeyValue.name? m == some name

/-- Whether an object has its closing brace. -/
def Object.isClosed (v : Object) : Bool := v.endsWith .rBrace

def Items.values (v : Items) : List Value := v.all .value

def Array.items? (v : Array) : Option Items := v.first? .items

def Array.values (v : Array) : List Value := (Array.items? v).toList.flatMap Items.values

/-- Whether an array has its closing bracket. -/
def Array.isClosed (v : Array) : Bool := v.endsWith .rBracket

/-! ### Invalid values -/

/-- The first token of an invalid value. -/
def InvalidValue.leaf? (v : InvalidValue) : Option LeafView := v.significantLeaf?

end View

/-! ## Nodes of any kind -/

/-- A node of some kind, in its place. -/
structure AnyView where
  kind : NodeKind
  view : View kind

namespace Site

/-- A site as a node of the kind its label names, if its label names one. -/
def anyView? (s : Site) : Option AnyView :=
  match s.tree with
  | .node (.node kind) children => some ⟨kind, s.offset, s.before, children⟩
  | _ => none

/-- The typed nodes at and below a site, parents first. -/
def views (s : Site) : List AnyView := s.descendants.filterMap (·.anyView?)

/-- Those that are nodes of a kind. -/
def viewsOf (kind : NodeKind) (s : Site) : List (View kind) := s.descendants.filterMap (·.view? kind)

end Site

end Maml
