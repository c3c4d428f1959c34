import Maml.Document

/-! Ways to write a document.

A document is laid out as a row of words with gaps in front of them: blanks and
comments. Two siblings have a comma between them, or a line break in the gap
between them, or both; there may be a comma behind the last. `Layout` says which
texts come from such a row. Nothing needs to be said of where one word ends and
the next begins: the words keep apart by themselves. -/
namespace Maml

/-! ## Gaps -/

/-- What may stand in front of a word: blanks, and comments that are each ended by a line break. -/
inductive IsGap : Text → Prop where
  | nil : IsGap []
  | blank {c gap} (hc : Lexer.isBlank c = true) (h : IsGap gap) : IsGap (c :: gap)
  | comment {body c gap} (hbody : body.any Lexer.isLineBreak = false)
      (hc : Lexer.isLineBreak c = true) (h : IsGap gap) : IsGap ('#' :: body ++ c :: gap)

/-- What may stand behind the last word: the text may end in a comment. -/
inductive IsEnd : Text → Prop where
  | gap {gap} (h : IsGap gap) : IsEnd gap
  | comment {gap body} (h : IsGap gap) (hbody : body.any Lexer.isLineBreak = false) :
      IsEnd (gap ++ '#' :: body)

/-- A word and the gap in front of it. -/
structure Spaced where
  gap : Text
  word : Word
  isGap : IsGap gap

namespace Spaced

def text (s : Spaced) : Text := s.gap ++ s.word.text

def kind (s : Spaced) : TokenKind := s.word.kind

/-- Whether a line break stands in front of the word. -/
def onNewLine (s : Spaced) : Bool := s.gap.any Lexer.isLineBreak

end Spaced

/-! ## Layouts -/

/-- The parts of a document that are laid out. -/
inductive Part where
  | value (d : Document)
  | element (c : Container) (e : c.Element)
  /-- What is between the brackets of a container. -/
  | list (c : Container) (es : List c.Element)
  /-- What is behind an element in its list. -/
  | tail (c : Container) (es : List c.Element)

/-- The rows of words that a part of a document is laid out as. -/
inductive LaidOut : Part → List Spaced → Prop where
  | scalar {w s} (hw : s.word = w.1) : LaidOut (.value (.scalar w)) [s]
  | container {c es opener ss closer} (ho : opener.kind = c.opener) (hc : closer.kind = c.closer)
      (h : LaidOut (.list c es) ss) : LaidOut (.value (.ofElements c es)) (opener :: ss ++ [closer])
  | member {k d key colon ss} (hk : key.word = k.1) (hc : colon.kind = .colon)
      (h : LaidOut (.value d) ss) : LaidOut (.element .object (k, d)) (key :: colon :: ss)
  | item {d ss} (h : LaidOut (.value d) ss) : LaidOut (.element .array d) ss
  | nil {c} : LaidOut (.list c []) []
  | cons {c e es ss ts} (h : LaidOut (.element c e) ss) (ht : LaidOut (.tail c es) ts) :
      LaidOut (.list c (e :: es)) (ss ++ ts)
  | done {c} : LaidOut (.tail c []) []
  | comma {c es comma ss} (hc : comma.kind = .comma) (h : LaidOut (.list c es) ss) :
      LaidOut (.tail c es) (comma :: ss)
  | line {c es s ss} (hs : s.onNewLine = true) (h : LaidOut (.list c es) (s :: ss)) :
      LaidOut (.tail c es) (s :: ss)

/-- Whether a text is a document written out. -/
def Layout (d : Document) (text : Text) : Prop :=
  ∃ ss rest, LaidOut (.value d) ss ∧ IsEnd rest ∧ text = ss.flatMap Spaced.text ++ rest

end Maml
