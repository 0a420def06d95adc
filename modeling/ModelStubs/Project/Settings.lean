/-
# Project settings

A project may keep its settings in a file of its directory. Every setting has a
default, and a project without the file has all defaults.

Key definitions: `Project.Settings`, `Project.Settings.load`,
`Project.Settings.modelPath`, `Project.Settings.outPath`.
-/
import ModelStubs.Disk.Access
import ModelStubs.Json.Written

namespace ModelStubs
namespace Project

open Json (Shape RecordShape Fields Field)

/-- The name of the settings file. -/
def settingsName : String := "modelgen.config.json"

/-- The settings of a project. -/
structure Settings where
  /-- The directory of the model files. -/
  modelDir : String
  /-- The directory of the generated files. -/
  outDir : String
  /-- The names of the generators to run. -/
  generators : List String
  /-- The version that replaces that of every document. -/
  version : Option String
  /-- The namespace that replaces that of every document. -/
  namespaceName : Option String
deriving DecidableEq, Repr

namespace Settings

/-- The settings of a project that says nothing. -/
def default : Settings := ⟨"model", "generated", ["Sample"], none, none⟩

/-- All fields have defaults; the last two are left out when they are not set. -/
def record : RecordShape Settings :=
  .mk "Config"
    (.cons (.default "modelDir" default.modelDir) (.scalar .text)
      (.cons (.default "outDir" default.outDir) (.scalar .text)
        (.cons (.default "generators" default.generators) (.list (.scalar .text))
          (.cons (.hiding String "version") (.optional (.scalar .text))
            (.cons (.hiding String "namespace") (.optional (.scalar .text)) .nil)))))
    { parts := fun s => (s.modelDir, s.outDir, s.generators, s.version, s.namespaceName, ())
      whole := fun (modelDir, outDir, generators, version, namespaceName, ()) =>
        ⟨modelDir, outDir, generators, version, namespaceName⟩ }

/-- The spelling of settings. -/
def shape : Shape Settings := .record record

/-- The settings as they are written to their file. -/
def text (s : Settings) : String := shape.pretty s

/-- The directory of the model files of a project. -/
def modelPath (s : Settings) (project : Disk.Path) : Disk.Path := project.join ⟨s.modelDir⟩

/-- The directory of the generated files of a project. -/
def outPath (s : Settings) (project : Disk.Path) : Disk.Path := project.join ⟨s.outDir⟩

/-- The settings file of a project. -/
def file (project : Disk.Path) : Disk.Path := project.join ⟨settingsName⟩

/-- Why settings cannot be loaded. -/
inductive Failure
  | unreadable (e : Disk.Error)
  | invalid (f : Json.Fault)
deriving Repr

/-- The wording of a failure to load settings. -/
def Failure.message : Failure → String
  | unreadable e => e.message
  | invalid f => f.message

/-- The settings of a project. -/
def load {m : Type → Type} [Monad m] [Disk.Access m] (project : Disk.Path) :
    m (Except Failure Settings) := do
  if ← Disk.Access.holds (file project) then
    match ← Disk.Access.readText (file project) with
    | .error e => return .error (.unreadable e)
    | .ok source =>
      match shape.ofText source with
      | .error f => return .error (.invalid f)
      | .ok s => return .ok s
  else return .ok default

end Settings
end Project
end ModelStubs
