import Maml.Diagnostic
import Maml.View

/-! Rules about a document's tree.

Three rules go beyond what a tree can tell by its shape. Siblings on one line
need a comma between them. The keys of an object have different names. A quoted
string has only the escapes that mean something. `validate` finds what breaks
the rules that are switched on. -/
namespace Maml

/-- Which rules are checked. -/
structure ValidationOptions where
  missingCommas : Bool
  duplicateKeys : Bool
  invalidEscapes : Bool
  deriving DecidableEq, Repr

namespace ValidationOptions

def default : ValidationOptions := ⟨true, true, true⟩

/-- Whether diagnostics of a category are given. -/
def reports (o : ValidationOptions) : Category → Bool
  | .expectedComma => o.missingCommas
  | .duplicateKey => o.duplicateKeys
  | .invalidEscape => o.invalidEscapes
  | _ => true

end ValidationOptions

namespace Validation

/-! ## Commas between siblings on one line -/

/-- Two siblings that stand on one line. -/
structure Neighbours where
  first : Site
  /-- The end of the comma between them, if there is one. -/
  comma : Option Nat
  next : Site

namespace Neighbours

def gap (n : Neighbours) : Span := ⟨n.first.stop, n.next.offset⟩

/-- What is between two siblings, behind the comma if there is one. -/
def blanks (n : Neighbours) : Span := ⟨n.comma.getD n.first.stop, n.next.offset⟩

end Neighbours

/-- The siblings of a kind that stand on one line. What was seen behind the previous sibling is
`previous` itself, the end of the last comma, and whether there was a line break; a node of
another kind makes the previous sibling forgotten. -/
def neighbours (kind : NodeKind) (previous : Option Site) (comma : Option Nat)
    (lineBreak : Bool) : List Site → List Neighbours
  | [] => []
  | s :: rest =>
    match s.tree with
    | .node label _ =>
      if label = .node kind then
        let more := neighbours kind (some s) none false rest
        match previous with
        | some first => if lineBreak then more else ⟨first, comma, s⟩ :: more
        | none => more
      else
        -- pairs around a mistake are not judged
        neighbours kind none comma lineBreak rest
    | .leaf label text =>
      if label = .token .comma then
        neighbours kind previous (some s.stop) lineBreak rest
      else if label = .token .whitespace && text.any Lexer.isLineBreak then
        neighbours kind previous comma true rest
      else
        neighbours kind previous comma lineBreak rest

/-- The fix that begins a line, with the given indent, between any two siblings on one line. -/
def breakLines (indent : Text) (pairs : List Neighbours) : Fix :=
  ⟨"Put each item on its own line", pairs.map fun n => ⟨n.blanks, '\n' :: indent⟩⟩

def missingComma (lines : Fix) (n : Neighbours) : Diagnostic :=
  let d := Diagnostic.ofParseError ⟨.comma, .eof, [], n.gap⟩
  { d with fixes := d.fixes ++ [lines] }

/-- The missing commas between siblings of a kind in a list. -/
def missingCommas {k : NodeKind} (kind : NodeKind) (list : View k) : List Diagnostic :=
  let pairs := neighbours kind none none false list.parts
  let lines := breakLines list.site.indent pairs
  (pairs.filter (·.comma.isNone)).map (missingComma lines)

/-! ## Names of keys -/

/-- The diagnostic of a key whose name another key had first. -/
def duplicateKey (name : Text) (range first : Span) : Diagnostic :=
  let title := String.ofList name
  { range := range
    severity := .warning
    category := .duplicateKey
    messageKey := "inspection.duplicate.keys.message"
    message := s!"duplicate key '{title}'"
    related := some first
    fixes := [] }

/-- The keys whose names were seen before, where `seen` has the first range of each name. -/
def duplicatesAmong (seen : List (Text × Span)) : List View.Key → List Diagnostic
  | [] => []
  | k :: ks =>
    let name := View.Key.name k
    match seen.lookup name with
    | some first => duplicateKey name k.range first :: duplicatesAmong seen ks
    | none => duplicatesAmong ((name, k.range) :: seen) ks

def duplicateKeys (m : View.Members) : List Diagnostic :=
  duplicatesAmong [] ((View.Members.keyValues m).filterMap View.KeyValue.key?)

/-! ## Escapes -/

/-- The diagnostic of an escape that quoted strings do not have. -/
def invalidEscape (sequence : Text) (range : Span) : Diagnostic :=
  let title := String.ofList sequence
  { range := range
    severity := .error
    category := .invalidEscape
    messageKey := "inspection.invalid.escape.message"
    message := s!"invalid escape sequence '{title}'"
    related := none
    fixes := [⟨"Escape backslash", [.insert range.start ['\\']]⟩] }

/-- The invalid escapes of a token, if it is a quoted string. -/
def invalidEscapes (l : LeafView) : List Diagnostic :=
  if l.label = .token .string then
    (Quoted.invalidEscapes l.text).map fun span =>
      invalidEscape ((l.text.slice? span.start span.stop).getD [])
        ⟨l.offset + span.start, l.offset + span.stop⟩
  else
    []

/-! ## All rules -/

/-- What breaks the rules at one node. -/
def atNode (o : ValidationOptions) : AnyView → List Diagnostic
  | ⟨.members, v⟩ =>
    (if o.missingCommas then missingCommas .keyValue v else []) ++
      (if o.duplicateKeys then duplicateKeys v else [])
  | ⟨.items, v⟩ => if o.missingCommas then missingCommas .value v else []
  | ⟨.key, v⟩ =>
    if o.invalidEscapes then (View.Key.leaf? v).toList.flatMap invalidEscapes else []
  | ⟨.value, v⟩ =>
    if o.invalidEscapes then
      match View.Value.content v with
      | .string l => invalidEscapes l
      | _ => []
    else
      []
  | _ => []

end Validation

/-- What breaks the rules at and below a site, in the order of the nodes. -/
def validate (o : ValidationOptions) (s : Site) : List Diagnostic :=
  s.views.flatMap (Validation.atNode o)

end Maml
