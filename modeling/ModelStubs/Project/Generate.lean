/-
# Generating

`generate` first looks at everything that concerns the run as a whole: the settings,
the model directory and the generators. Only then does it go through the model
files; a file that fails costs one line and does not stop the others.

Key definitions: `Project.GenerateArguments`, `Project.Job`, `Project.prepare`,
`Project.modelFiles`, `Project.processFile`, `Project.generate`.
-/
import ModelStubs.Generator.Registry
import ModelStubs.Model.Load
import ModelStubs.Output.Sink
import ModelStubs.Project.Refusal
import ModelStubs.Stub.Class

namespace ModelStubs
namespace Project

open Disk (Path Access Names)
open Model (Document Placement)

/-- What `generate` is asked to do. -/
structure GenerateArguments where
  /-- The directory of the project. -/
  path : String
  /-- The generators to run instead of those of the settings. -/
  generators : List String
  outDir : Option String
  modelVersion : Option String
  /-- Files are shown on the output instead of being written. -/
  stdout : Bool
deriving DecidableEq, Repr

/-- The registry of the generators that the program has. -/
def builtin : Except Failure Registry := Registry.empty.register Stub.generator

/-- What a run needs to know before it looks at a model file. -/
structure Job where
  settings : Settings
  registry : Registry
  generators : List String
  modelDir : Path
  outDir : Path
  modelVersion : Option String
  stdout : Bool

/-- The generators of a run: those asked for, else those of the settings. -/
def selection (a : GenerateArguments) (s : Settings) : List String :=
  if a.generators.isEmpty then s.generators else a.generators

/-- The first name that no generator has. -/
def firstUnknown (r : Registry) (names : List String) : Option String :=
  names.find? fun name => (r.get? name).isNone

/-- The generators of a run, if there are some and all are registered. -/
def selected (r : Registry) (names : List String) : Except Refusal (List String) :=
  if names.isEmpty then .error .noGenerators
  else
    match firstUnknown r names with
    | some name => .error (.unknownGenerator name r.names)
    | none => .ok names

variable {m : Type → Type} [Monad m] [Access m]

/-- Looks at everything that concerns the run as a whole. -/
def prepare (a : GenerateArguments) (cwd : Path) : m (Except Refusal Job) := do
  let project := cwd.join ⟨a.path⟩
  match ← Settings.load project with
  | .error f => return .error (.settings f)
  | .ok settings =>
    let modelDir := settings.modelPath project
    if !(← Access.holds modelDir) then return .error (.noModelDirectory modelDir)
    match builtin with
    | .error f => return .error (.generator f)
    | .ok registry =>
      match selected registry (selection a settings) with
      | .error r => return .error r
      | .ok generators =>
        let outDir := match a.outDir with
          | some out => project.join ⟨out⟩
          | none => settings.outPath project
        return .ok ⟨settings, registry, generators, modelDir, outDir, a.modelVersion, a.stdout⟩

/-- Whether the file that a walk found is a model file. The walk shows a file given
as the directory itself under no name; then the directory's own name counts. -/
def isModelFile (dir : Path) (names : Names) : Bool :=
  match (names.getLast?.or dir.fileName?).bind Disk.nameEnding? with
  | some ending => ending == "json"
  | none => false

/-- The model files below a directory, in the order of a walk. -/
def modelFiles (dir : Path) : m (List Names) := do
  return (← Access.filesBelow dir).filter (isModelFile dir)

/-- Why a model file was not processed. -/
inductive FileFailure
  | model (f : ModelFailure)
  | output (f : Failure)
deriving Repr

/-- The wording of a failure of one file. -/
def FileFailure.message : FileFailure → String
  | model f => f.message
  | output f => f.message

/-- Where the code of a document goes: by the namespace of the settings, else by that
of the document. -/
def Job.placement (job : Job) (d : Document) : Placement :=
  match job.settings.namespaceName with
  | some namespaceName => .ofNamespace namespaceName
  | none => d.placement

/-- The version of a document's code: as asked for, else by the settings, else the
document's. -/
def Job.version (job : Job) (d : Document) : String :=
  (job.modelVersion.or job.settings.version).getD d.version

/-- The lines that show generated files. -/
def shownFiles (files : GeneratedFiles) : Report :=
  files.entries.flatMap fun e => [.plain ("// " ++ e.1), .plain e.2]

/-- Shows the files or writes them. The answer has the lines shown and the number of
files. -/
def Job.deliver (job : Job) (files : GeneratedFiles) : m (Report × Except Failure Nat) := do
  if job.stdout then return (shownFiles files, .ok files.size)
  match ← Output.writeFiles (Output.diskSink job.outDir) files with
  | .error f => return ([], .error f)
  | .ok paths => return ([], .ok paths.length)

/-- Runs the given generators over a document. The answer has the lines shown and the
number of files. -/
def Job.runGenerators (job : Job) (d : Document) : List String → m (Report × Except Failure Nat)
  | [] => return ([], .ok 0)
  | name :: names => do
    match job.registry.run name (job.placement d) d.elements (job.version d) with
    | .error f => return ([], .error f)
    | .ok files =>
      match ← job.deliver files with
      | (shown, .error f) => return (shown, .error f)
      | (shown, .ok count) =>
        match ← job.runGenerators d names with
        | (more, .error f) => return (shown ++ more, .error f)
        | (more, .ok rest) => return (shown ++ more, .ok (count + rest))

/-- Runs the generators over a model file. -/
def processFile (job : Job) (file : Path) : m (Report × Except FileFailure Nat) := do
  match ← Document.load file with
  | .error f => return ([], .error (.model f))
  | .ok d =>
    match ← job.runGenerators d job.generators with
    | (shown, .error f) => return (shown, .error (.output f))
    | (shown, .ok count) => return (shown, .ok count)

/-- The line on a processed file. -/
def resultLine (shown : String) : Except FileFailure Nat → Line
  | .ok count =>
    .out [.plain "  ", green "✓", .plain (" " ++ shown ++ " → " ++ toString count ++ " files")]
  | .error f => .err [.plain "  ", red "✗", .plain (" " ++ shown ++ " - "), red f.message]

/-- How many files were processed and how many failed. -/
structure Tally where
  processed : Nat
  failed : Nat
deriving DecidableEq, Repr

/-- The tally with one result more. -/
def Tally.add (t : Tally) : Except FileFailure Nat → Tally
  | .ok _ => { t with processed := t.processed + 1 }
  | .error _ => { t with failed := t.failed + 1 }

/-- Goes through model files, named from the model directory. -/
def processFiles (job : Job) (t : Tally) : List Names → m (Report × Tally)
  | [] => return ([], t)
  | names :: files => do
    let (shown, result) ← processFile job (job.modelDir.below names)
    let (report, t) ← processFiles job (t.add result) files
    return (shown ++ resultLine ("/".intercalate names) result :: report, t)

/-- The lines at the end of a run. -/
def summary (t : Tally) : Report :=
  [.plain "",
   if t.failed = 0 then
     .out [green "✅",
       .plain (" Processed " ++ toString t.processed ++ " model files successfully")]
   else
     .out [yellow "⚠️",
       .plain (" Processed " ++ toString t.processed ++ " model files, " ++ toString t.failed ++
         " errors")]]

/-- Goes through the model files of a project. -/
def Job.run (job : Job) : m Report := do
  let title : Line := .out [heading "🔨 Generating from model files..."]
  let files ← modelFiles job.modelDir
  if files.isEmpty then return [title, .out [yellow "⚠️  No model files found"]]
  let (report, t) ← processFiles job ⟨0, 0⟩ files
  return title :: .plain ("Found " ++ toString files.length ++ " files") :: report ++ summary t

/-- Generates the files of a project. -/
def generate (a : GenerateArguments) (cwd : Path) : m Ending := do
  match ← prepare a cwd with
  | .error r => return ⟨[], some r⟩
  | .ok job => return ⟨← job.run, none⟩

/-- Lists the generators. -/
def listGenerators : Ending :=
  match builtin with
  | .error f => ⟨[], some (.generator f)⟩
  | .ok registry =>
    ⟨.out [heading "Available generators:"] ::
      registry.names.map fun name => .out [.plain "  ", green "•", .plain (" " ++ name)], none⟩

end Project
end ModelStubs
