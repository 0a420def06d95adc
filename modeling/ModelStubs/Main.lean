/-
# The program

The command over the files of the system. Of what a run writes it leaves out the log.

Key definitions: `main`.
-/
import ModelStubs.Project.Command

namespace ModelStubs
namespace Program

open Disk (Path Access Names)

/-- The number of a failed request, where the system gives one. -/
def codeOf : IO.Error → Option UInt32
  | .alreadyExists _ code _ => some code
  | .noFileOrDirectory _ code _ => some code
  | .inappropriateType _ code _ => some code
  | .invalidArgument _ code _ => some code
  | .resourceExhausted _ code _ => some code
  | .otherError code _ => some code
  | _ => none

/-- The failure of a request to the system. -/
def failureOf (e : IO.Error) : Disk.Error :=
  match codeOf e with
  | some 2 => .notFound
  | some 17 => .alreadyExists
  | some 20 => .notDirectory
  | some 21 => .isDirectory
  | some 36 => .nameTooLong
  | some 40 => .tooManyLinks
  | _ => .other e.toString

/-- A request to the system for a path, with its failure as an answer. -/
def request {α : Type} (p : Path) (act : IO α) : IO (Except Disk.Error α) :=
  if p.text.toList.contains '\x00' then return .error .nulInName
  else try return .ok (← act) catch e => return .error (failureOf e)

/-- The system's name for a path. -/
def entryOf (p : Path) : IO.FS.DirEntry := ⟨"", p.text⟩

/-- What a path leads to. -/
def kindOf (p : Path) : IO (Option IO.FS.FileType) := do
  match ← request p (entryOf p).path.metadata with
  | .ok data => return some data.type
  | .error _ => return none

/-- The text of a file. -/
def readFile (p : Path) : IO (Except Disk.Error String) := do
  match ← request p (IO.FS.readBinFile p.text) with
  | .error e => return .error e
  | .ok bytes =>
    match String.fromUTF8? bytes with
    | none => return .error .notText
    | some s => return .ok s

/-- The files below a directory, which the walk is inside of with those in
`inside`. -/
partial def walk (inside : List String) (dir : Path) (shown : Names) : IO (List Names) := do
  match ← request dir (entryOf dir).path.readDir with
  | .error _ => return []
  | .ok entries =>
    let names := (entries.toList.map (·.fileName)).mergeSort fun a b => decide (a ≤ b)
    let found ← names.mapM fun name => do
      let path := dir.child name
      match ← kindOf path with
      | some .file => return [shown ++ [name]]
      | some .dir =>
        let place := (← IO.FS.realPath path.text).toString
        let data ← (entryOf path).path.symlinkMetadata
        if data.type == .symlink && inside.contains place then return []
        walk (place :: inside) path (shown ++ [name])
      | _ => return []
    return found.flatten

/-- The files that a path leads to. -/
def filesBelow (p : Path) : IO (List Names) := do
  match ← kindOf p with
  | some .file => return [[]]
  | some .dir => walk [(← IO.FS.realPath p.text).toString] p []
  | _ => return []

instance : Access IO where
  holds p := do return (← kindOf p).isSome
  isDirectory p := do return (← kindOf p) == some .dir
  readText := readFile
  makeDirectory p := request p (IO.FS.createDir p.text)
  writeText p s := request p (IO.FS.writeFile p.text s)
  filesBelow := filesBelow

/-- Whether pieces of the report are set off by colours. -/
def showsColours : IO Bool := do
  if (← IO.getEnv "CLICOLOR_FORCE").any (· != "0") then return true
  if (← IO.getEnv "NO_COLOR").isSome then return false
  if (← IO.getEnv "CLICOLOR") == some "0" then return false
  (← IO.getStdout).isTty

end Program
end ModelStubs

/-- Runs the command and ends with its code. -/
def main (words : List String) : IO UInt32 := do
  let cwd ← IO.currentDir
  let outcome ← ModelStubs.Project.run words ⟨cwd.toString⟩
  let colours ← ModelStubs.Program.showsColours
  IO.print (outcome.report.text colours .out)
  IO.eprint (outcome.report.text colours .err)
  return outcome.code
