/-
# Generators

A generator makes files from the elements of a model. A file is kept under its key,
a path below the output directory with slashes between its parts.

Key definitions: `Generator`, `GeneratedFiles`.
-/
import ModelStubs.Listing
import ModelStubs.Model.Document

namespace ModelStubs

/-- The texts of generated files under their keys, in the order of the keys. -/
abbrev GeneratedFiles : Type := Listing String String

/-- A generator and the name it is registered under. -/
structure Generator where
  name : String
  generate : Model.Placement → List Model.Element → (version : String) → GeneratedFiles

end ModelStubs
