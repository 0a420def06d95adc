/-
# Loading documents

Key definitions: `Model.Document.load`.
-/
import ModelStubs.Disk.Access
import ModelStubs.Failure
import ModelStubs.Model.Document

namespace ModelStubs
namespace Model

/-- The document in a file. -/
def Document.load {m : Type → Type} [Monad m] [Disk.Access m] (path : Disk.Path) :
    m (Except ModelFailure Document) := do
  match ← Disk.Access.readText path with
  | .error e => return .error (.unreadable path e)
  | .ok source =>
    match Document.ofText source with
    | .error f => return .error (.invalid f)
    | .ok d => return .ok d

end Model
end ModelStubs
