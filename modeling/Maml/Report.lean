import Maml.Diagnostic

/-! Reports.

A `Report` is what is shown to a reader of a diagnostic: a headline, the place in
lines and columns, and a help text. Labels point at the ranges it speaks of. An
empty range is widened to a character next to it, so that there is something to
point at.

Reports are drawn by a `Renderer`, which is no part of the program: it decides
which labels are shown and how their places are told. `Renderer.ariadne` is the
one that is used. It leaves a label out that reaches past the text, and one that
cuts a character in two is a fault. -/
namespace Maml

/-- What a report takes from whatever draws it: whether a label is shown on a text, and the place of
a label in a text of a given name. -/
structure Renderer where
  shows : Text → Span → Except Fault Bool
  locate : String → Text → Span → Except Fault String

namespace Renderer

/-! ## Lines and columns -/

def endsLine (c : Char) : Bool :=
  c == '\n' || c == '\r' || c == '\x0b' || c == '\x0c' || c == '\x85' || c == '\u2028' ||
    c == '\u2029'

/-- The lines of a text, each with the line break that ends it. -/
def lines : Text → List Text
  | [] => []
  | '\r' :: '\n' :: cs => ['\r', '\n'] :: lines cs
  | c :: cs =>
    if endsLine c then
      [c] :: lines cs
    else
      match lines cs with
      | [] => [[c]]
      | l :: ls => (c :: l) :: ls

/-- A place in a text: a line and a column in it, both counted from one. -/
structure Position where
  line : Nat
  column : Nat
  deriving DecidableEq, Repr

/-- The position of an offset in lines of which the first has the given number. The end of the
text is on the last line. -/
def positionIn (line offset : Nat) : List Text → Except Fault Position
  | [] => if offset = 0 then .ok ⟨line, 1⟩ else .error (.badSlice offset offset)
  | [l] => columnIn line offset l
  | l :: ls =>
    if offset < l.size then columnIn line offset l
    else positionIn (line + 1) (offset - l.size) ls
where
  /-- The position of an offset in one line. -/
  columnIn (line offset : Nat) (l : Text) : Except Fault Position :=
    match l.splitAt? offset with
    | some (before, _) => .ok ⟨line, before.length + 1⟩
    | none => .error (.badSlice offset offset)

/-! ## Labels -/

/-- Whether a label is shown. One whose first or last byte lies behind the end of the text is left
out. The end itself still counts as a place, so a label that stops one byte behind it is not left
out, but like one that starts or stops inside a character it covers no part of the text. -/
def showsLabel (source : Text) (label : Span) : Except Fault Bool :=
  if source.size < label.start then
    .ok false
  else if !source.isBoundary label.start then
    .error (.badSlice label.start label.stop)
  else if source.size + 1 < label.stop then
    .ok false
  else if source.isBoundary label.stop then
    .ok true
  else
    .error (.badSlice label.start label.stop)

/-- The place of a label in a text of a given name. A place behind the text has no line. -/
def locationOf (name : String) (source : Text) (label : Span) : Except Fault String :=
  if source.size < label.start then
    .ok s!"{name}:?:?"
  else do
    let position ← positionIn 1 label.start (lines source)
    let line := position.line
    let column := position.column
    return s!"{name}:{line}:{column}"

/-- The renderer that is used, with the offsets of labels taken as bytes. -/
def ariadne : Renderer := ⟨showsLabel, locationOf⟩

end Renderer

/-- What is shown of a diagnostic. -/
structure Report where
  headline : String
  location : String
  /-- Whether the diagnostic also names the place of a first definition. -/
  showsRelated : Bool
  /-- The title of the first fix. -/
  help : Option String
  deriving DecidableEq, Repr

/-- The range to point at: an empty range is widened to the character behind it, or else to the
one in front of it. -/
def Report.labelRange (source : Text) (range : Span) : Except Fault Span :=
  if range.isEmpty then
    let offset := min range.start source.size
    match source.splitAt? offset with
    | some (_, c :: _) => .ok ⟨offset, offset + c.utf8Size⟩
    | some (before, []) =>
      match before.getLast? with
      | some c => .ok ⟨offset - c.utf8Size, offset⟩
      | none => .ok ⟨offset, offset⟩
    | none => .error (.badSlice offset source.size)
  else
    .ok range

namespace Diagnostic

/-- What a diagnostic shows above its text. -/
def headline (d : Diagnostic) : String :=
  let message := d.message
  match d.severity with
  | .error => s!"Error: {message}"
  | .warning => s!"Warning: {message}"

/-- The report of a diagnostic on a text of a given name, drawn by a renderer. It is a fault if no
label is left to show. -/
def reportBy (r : Renderer) (d : Diagnostic) (name : String) (source : Text) :
    Except Fault Report := do
  let label ← Report.labelRange source d.range
  let related ← d.related.mapM (Report.labelRange source)
  let shown ← (related.toList ++ [label]).mapM (r.shows source)
  let location ←
    if shown.contains true then r.locate name source label
    else .error (.badSlice label.start label.stop)
  return ⟨d.headline, location, d.related.isSome, (d.fixes.head?).map Fix.title⟩

def report (d : Diagnostic) (name : String) (source : Text) : Except Fault Report :=
  d.reportBy .ariadne name source

end Diagnostic

end Maml
