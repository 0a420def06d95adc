/-
# Starting a project

`init` makes the directory of the model files with an example in it, and writes the
settings. What is there is kept, and settings are only replaced if that is asked
for.

Key definitions: `Project.InitArguments`, `Project.init`.
-/
import ModelStubs.Project.Refusal

namespace ModelStubs
namespace Project

open Disk (Path Access)

/-- What `init` is asked to do. -/
structure InitArguments where
  generators : List String
  modelDir : String
  force : Bool
deriving DecidableEq, Repr

/-- The model of a new project, line by line. -/
def exampleLines : List String :=
  ["\x7b",
   "  \"namespace\": \"com.example\",",
   "  \"version\": \"0.1.0\",",
   "  \"elements\": [",
   "    \x7b",
   "      \"kind\": \"class\",",
   "      \"name\": \"Trade\",",
   "      \"definition\": \"A trade record\",",
   "      \"attributes\": [",
   "        \x7b \"name\": \"id\", \"type\": \"string\", \"card\": \x7b \"inf\": 1, \"sup\": 1 \x7d \x7d,",
   "        \x7b \"name\": \"tradeDate\", \"type\": \"date\", \"card\": \x7b \"inf\": 1, \"sup\": 1 \x7d \x7d,",
   "        \x7b \"name\": \"legs\", \"type\": \"Leg\", \"card\": \x7b \"inf\": 1, \"sup\": null \x7d \x7d",
   "      ]",
   "    \x7d,",
   "    \x7b",
   "      \"kind\": \"class\",",
   "      \"name\": \"Leg\",",
   "      \"attributes\": [",
   "        \x7b \"name\": \"notional\", \"type\": \"number\", \"card\": \x7b \"inf\": 1, \"sup\": 1 \x7d \x7d",
   "      ]",
   "    \x7d",
   "  ]",
   "\x7d"]

/-- The model of a new project. -/
def exampleModel : String := String.join (exampleLines.map fun l => l ++ "\n")

/-- The name of the file with the model of a new project. -/
def exampleName : String := "example.json"

/-- The settings that `init` writes. -/
def InitArguments.settings (a : InitArguments) : Settings :=
  { Settings.default with modelDir := a.modelDir, generators := a.generators }

/-- The line on something that was made. -/
def created (what : String) : Line :=
  .out [.plain "  ", green "✓", .plain (" Created " ++ what)]

/-- The lines on a project that has settings already. -/
def alreadyThere : Report :=
  [.out [yellow "⚠️", .plain " ", .styled ⟨false, .brightWhite⟩ settingsName,
     .plain " already exists"],
   .plain "Use --force to overwrite"]

/-- The lines at the end of `init`. -/
def nextSteps (s : Settings) : Report :=
  [created settingsName,
   .plain "",
   .out [.styled ⟨true, .green⟩ "✅ Project initialized!"],
   .plain "",
   .plain "Next steps:",
   .plain ("  1. Edit " ++ s.modelDir ++ "/" ++ exampleName),
   .plain "  2. Run: modelgen generate",
   .plain ("  3. Check output in " ++ s.outDir ++ "/")]

variable {m : Type → Type} [Monad m] [Access m]

/-- Makes the model directory if nothing is there. -/
def initDirectory (dir : Path) (name : String) : m (Except Refusal Report) := do
  if ← Access.holds dir then return .ok []
  match ← Disk.makeDirectories dir.ancestors with
  | .error e => return .error (.disk e)
  | .ok () => return .ok [created (name ++ "/")]

/-- Writes the example if nothing is there. -/
def initExample (file : Path) : m (Except Refusal Report) := do
  if ← Access.holds file then return .ok []
  match ← Access.writeText file exampleModel with
  | .error e => return .error (.disk e)
  | .ok () => return .ok [created exampleName]

/-- Starts a project in a directory. -/
def init (a : InitArguments) (cwd : Path) : m Ending := do
  if (← Access.holds (Settings.file cwd)) && !a.force then return ⟨alreadyThere, none⟩
  let title : Report := [.out [heading "📝 Initializing modelgen project..."]]
  let dir := cwd.join ⟨a.modelDir⟩
  match ← initDirectory dir a.modelDir with
  | .error r => return ⟨title, some r⟩
  | .ok made =>
    match ← initExample (dir.join ⟨exampleName⟩) with
    | .error r => return ⟨title ++ made, some r⟩
    | .ok example_ =>
      match ← Access.writeText (Settings.file cwd) a.settings.text with
      | .error e => return ⟨title ++ made ++ example_, some (.disk e)⟩
      | .ok () => return ⟨title ++ made ++ example_ ++ nextSteps a.settings, none⟩

end Project
end ModelStubs
