/-
# Comments

Every stub has a comment with the definition of its class and the version of the
model. Blanks at the two ends of a definition are dropped, and a definition of
blanks alone is left out.

Key definitions: `Stub.comment`.
-/
import ModelStubs.Stub.Buffer
import ModelStubs.Text.Blank

namespace ModelStubs
namespace Stub

/-- The comment with a definition and a version, and the end of its line. -/
def comment (definition version : String) : String :=
  let definition := Text.trim definition
  if definition.isEmpty then "/** version " ++ version ++ " */" ++ lineSeparator
  else "/** " ++ definition ++ " — version " ++ version ++ " */" ++ lineSeparator

end Stub
end ModelStubs
