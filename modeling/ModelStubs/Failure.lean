/-
# Failures

What can go wrong between a model file and the files generated from it.

Key definitions: `ModelFailure`, `Failure`, `Failure.message`.
-/
import ModelStubs.Disk.Error
import ModelStubs.Disk.Path
import ModelStubs.Json.Place

namespace ModelStubs

/-- Why a model file gives no document. -/
inductive ModelFailure
  | unreadable (path : Disk.Path) (e : Disk.Error)
  | invalid (f : Json.Fault)
deriving Repr

/-- The wording of a failure to load a model file. -/
def ModelFailure.message : ModelFailure → String
  | unreadable path e => "Failed to read model file " ++ path.text ++ ": " ++ e.message
  | invalid f => "Invalid model JSON: " ++ f.message

/-- Why no files were generated or written. -/
inductive Failure
  | model (f : ModelFailure)
  | disk (e : Disk.Error)
  | unknownGenerator (name : String)
  | duplicateGenerator (name : String)
  | invalidOutputPath (key : String)
deriving Repr

/-- The wording of a failure. -/
def Failure.message : Failure → String
  | model f => "Model error: " ++ f.message
  | disk e => "IO error: " ++ e.message
  | unknownGenerator name => "Unknown generator '" ++ name ++ "'"
  | duplicateGenerator name => "Generator '" ++ name ++ "' is already registered"
  | invalidOutputPath key =>
    "Invalid output path '" ++ key ++ "': must be relative and stay inside the output root"

end ModelStubs
