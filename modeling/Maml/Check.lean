import Maml.Parse
import Maml.Validation

/-! Checking a document.

`check` tells everything that is wrong with a text: the mistakes met in reading
it, and what breaks the rules about its tree, sorted by place. -/
namespace Maml

namespace Parse

def diagnostics (p : Parse) : List Diagnostic := p.errors.map .ofParseError

end Parse

/-- Everything that is wrong with a text; of two diagnostics with the same range, one met in
reading comes first. -/
def check (o : ValidationOptions) (source : Text) : List Diagnostic :=
  let p := parse source
  sortByRange Diagnostic.range (p.diagnostics ++ validate o (.root p.tree))

end Maml
