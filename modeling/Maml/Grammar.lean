import Maml.Container

/-! The grammar of documents.

A document is one value or nothing. `Derives n phrase kinds` says that a row of
significant tokens with these kinds is a phrase of the grammar in which at most
`n` containers are nested in one another. The elements of a list have commas
between them or not, and there may be one comma behind the last. -/
namespace Maml

/-- The phrases of the grammar. -/
inductive Phrase where
  | value
  /-- One element of a container: a key, a colon and a value, or a value. -/
  | element (c : Container)
  /-- One or more elements. -/
  | list (c : Container)
  /-- What is behind an element in its list. -/
  | tail (c : Container)

/-- The phrases that tokens of given kinds make, with at most so many containers in one another. -/
inductive Derives : Nat → Phrase → List TokenKind → Prop where
  | scalar {n kind} (h : kind.isScalar = true) : Derives n .value [kind]
  | empty {n} (c : Container) : Derives (n + 1) .value [c.opener, c.closer]
  | container {n c ts} (h : Derives n (.list c) ts) :
      Derives (n + 1) .value (c.opener :: ts ++ [c.closer])
  | keyValue {n key ts} (hk : key.isKeyStart = true) (h : Derives n .value ts) :
      Derives n (.element .object) (key :: .colon :: ts)
  | item {n ts} (h : Derives n .value ts) : Derives n (.element .array) ts
  | list {n c ts us} (h : Derives n (.element c) ts) (ht : Derives n (.tail c) us) :
      Derives n (.list c) (ts ++ us)
  | done {n} (c : Container) : Derives n (.tail c) []
  | comma {n} (c : Container) : Derives n (.tail c) [.comma]
  | next {n c ts us} (h : Derives n (.element c) ts) (ht : Derives n (.tail c) us) :
      Derives n (.tail c) (ts ++ us)
  | commaNext {n c ts us} (h : Derives n (.element c) ts) (ht : Derives n (.tail c) us) :
      Derives n (.tail c) (.comma :: ts ++ us)

/-- Whether tokens of given kinds are a document: one value, if any, that is not nested too
deep. -/
def IsDocument (kinds : List TokenKind) : Prop :=
  kinds = [] ∨ Derives Container.maxDepth .value kinds

/-- The kinds of the significant tokens of a text. -/
def significantKinds (source : Text) : List TokenKind :=
  ((tokenize source).filter (!·.isTrivia)).map Token.kind

end Maml
