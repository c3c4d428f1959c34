import Maml.Check

/-! Keys that an object had before.

A key is repeated if one in front of it has the same name. A name is looked up by the
first key that has it. -/
namespace Maml.View

/-- Those keys of which one in front has the same name. -/
def repeatedKeys (ks : List Key) : List Key :=
  (ks.zipIdx.filter fun (k, i) => (ks.take i).any (Key.name · == Key.name k)).map (·.1)

namespace Object

def keys (v : Object) : List Key := (keyValues v).filterMap KeyValue.key?

/-- The key of the member that a name is looked up by. -/
def keyOf? (v : Object) (name : Text) : Option Key := (get? v name).bind KeyValue.key?

/-- What a check of a text tells of keys that an object had before. -/
def duplicates (v : Object) (o : ValidationOptions) (source : Text) : List Diagnostic :=
  (check o source).filter fun d =>
    d.category == .duplicateKey && (keys v).any (·.range == d.range)

end Object

end Maml.View
