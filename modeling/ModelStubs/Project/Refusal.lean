/-
# Refusals

Why a command gives up as a whole.

Key definitions: `Project.Refusal`, `Project.Refusal.message`, `Project.Ending`.
-/
import ModelStubs.Failure
import ModelStubs.Project.Report
import ModelStubs.Project.Settings

namespace ModelStubs
namespace Project

/-- Why a command gives up. -/
inductive Refusal
  | settings (f : Settings.Failure)
  | noModelDirectory (path : Disk.Path)
  | noGenerators
  | unknownGenerator (name : String) (available : List String)
  | disk (e : Disk.Error)
  | generator (f : Failure)
deriving Repr

/-- The wording of a refusal. -/
def Refusal.message : Refusal → String
  | settings f => f.message
  | noModelDirectory path => "Model directory does not exist: " ++ Text.shown path.text
  | noGenerators => "No generators selected"
  | unknownGenerator name available =>
    "Unknown generator: " ++ name ++ ". Available: " ++ ", ".intercalate available
  | disk e => e.message
  | generator f => f.message

/-- What a command reported, and why it gave up if it did. -/
structure Ending where
  report : Report
  refusal : Option Refusal

end Project
end ModelStubs
