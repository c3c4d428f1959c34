import Maml.Container
import Maml.View

/-! Documents apart from how they are written.

A `Document` has the words of a text and their structure, but not where they
stand, nor the commas, trivia and brackets around them. `Document.ReadFrom` is how
a document is read from the typed views of a tree: by the content of values, the
members of objects, their keys and values, and the items of arrays. -/
namespace Maml

/-- A token apart from its place: a kind, and a text that is one token of that kind. -/
structure Word where
  kind : TokenKind
  text : Text
  lex_text : Lexer.lex text = [(kind, text)]

/-- The words that are a whole value. -/
abbrev ScalarWord := { w : Word // w.kind.isScalar = true }

/-- The words that can be a key. -/
abbrev KeyWord := { w : Word // w.kind.isKeyStart = true }

/-- A value, apart from how it is written. -/
inductive Document where
  | scalar (word : ScalarWord)
  | object (members : List (KeyWord × Document))
  | array (items : List Document)

/-- What a container holds. -/
def Container.Element : Container → Type
  | object => KeyWord × Document
  | array => Document

def Container.elementKind : Container → NodeKind
  | object => .keyValue
  | array => .value

namespace Document

/-- The document of a container with given elements. -/
def ofElements : (c : Container) → List c.Element → Document
  | .object, members => object members
  | .array, items => array items

/-! ## Nesting and words -/

mutual

/-- How many containers are nested in one another. -/
def depth : Document → Nat
  | scalar _ => 0
  | object members => depthOfMembers members + 1
  | array items => depthOfItems items + 1

def depthOfMembers : List (KeyWord × Document) → Nat
  | [] => 0
  | (_, d) :: members => max d.depth (depthOfMembers members)

def depthOfItems : List Document → Nat
  | [] => 0
  | d :: items => max d.depth (depthOfItems items)

end

mutual

def words : Document → List Word
  | scalar w => [w.1]
  | object members => wordsOfMembers members
  | array items => wordsOfItems items

def wordsOfMembers : List (KeyWord × Document) → List Word
  | [] => []
  | (key, d) :: members => key.1 :: d.words ++ wordsOfMembers members

def wordsOfItems : List Document → List Word
  | [] => []
  | d :: items => d.words ++ wordsOfItems items

end

/-- Whether the quoted strings of a document, keys included, have only escapes that mean
something. -/
def HasValidEscapes (d : Document) : Prop :=
  ∀ w ∈ d.words, w.kind = .string → Quoted.invalidEscapes w.text = []

end Document

/-! ## Reading -/

/-- The word that a value consists of, if it is a scalar. -/
def View.Content.word? : View.Content → Option (TokenKind × Text)
  | .string l => some (.string, l.text)
  | .multilineString l => some (.multilineString, l.text)
  | .number l => some (.number, l.text)
  | .trueWord => some (.trueWord, ['t', 'r', 'u', 'e'])
  | .falseWord => some (.falseWord, ['f', 'a', 'l', 's', 'e'])
  | .nullWord => some (.nullWord, ['n', 'u', 'l', 'l'])
  | .object _ | .array _ | .invalid _ | .missing => none

/-- The word that the key of a member consists of. -/
def View.KeyValue.keyWord? (v : View.KeyValue) : Option (Label × Text) :=
  ((View.KeyValue.key? v).bind View.Key.leaf?).map fun l => (l.label, l.text)

namespace Document

mutual

/-- Whether a document is what a value of a tree reads as. -/
def ReadFrom : Document → View.Value → Prop
  | scalar w, v => (View.Value.content v).word? = some (w.1.kind, w.1.text)
  | object members, v => ∃ o, View.Value.content v = .object o ∧
      MembersReadFrom members (View.Object.keyValues o)
  | array items, v => ∃ a, View.Value.content v = .array a ∧
      ItemsReadFrom items (View.Array.values a)

def MembersReadFrom : List (KeyWord × Document) → List View.KeyValue → Prop
  | [], views => views = []
  | (key, d) :: members, views => ∃ v rest, views = v :: rest ∧
      (View.KeyValue.keyWord? v = some (.token key.1.kind, key.1.text) ∧
        ∃ value, View.KeyValue.value? v = some value ∧ d.ReadFrom value) ∧
      MembersReadFrom members rest

def ItemsReadFrom : List Document → List View.Value → Prop
  | [], views => views = []
  | d :: items, views => ∃ v rest, views = v :: rest ∧ d.ReadFrom v ∧ ItemsReadFrom items rest

end

/-! ## Only one document is read -/

theorem scalar_inj {w x : ScalarWord} (hk : w.1.kind = x.1.kind) (ht : w.1.text = x.1.text) :
    scalar w = scalar x := by
  obtain ⟨⟨_, _, _⟩, _⟩ := w
  obtain ⟨⟨_, _, _⟩, _⟩ := x
  simp only at hk ht
  subst hk ht
  rfl

end Document

end Maml
