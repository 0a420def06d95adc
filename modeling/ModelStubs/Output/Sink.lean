/-
# Sinks

A sink takes the texts of generated files. `writeFiles` gives it all files of a
listing in the order of their keys, after it has looked at all keys: if one is
refused the sink is not asked at all. The first write that fails is the last.

A memory sink keeps the texts under their paths; two spellings of a path are the
same path, and the spelling that came first stays. A disk sink writes below a
directory and makes the directories that are missing.

Key definitions: `Output.Sink`, `Output.resolved`, `Output.writeFiles`,
`Output.MemoryFiles`, `Output.memorySink`, `Output.diskSink`.
-/
import ModelStubs.Disk.Access
import ModelStubs.Generator.Basic
import ModelStubs.Output.Key

namespace ModelStubs
namespace Output

open Disk (Path Component)

/-- Where the texts of files go. A write answers the path of the file. -/
structure Sink (m : Type → Type) where
  write : Path → String → m (Except Disk.Error Path)

/-- The path and text of each file, unless a key is refused. -/
def resolved : List (String × String) → Except Failure (List (Path × String))
  | [] => .ok []
  | (key, text) :: files =>
    match outputPath key with
    | .error f => .error f
    | .ok path =>
      match resolved files with
      | .error f => .error f
      | .ok rest => .ok ((path, text) :: rest)

/-- Writes texts in order until a write fails. -/
def writeAll {m : Type → Type} [Monad m] (sink : Sink m) :
    List (Path × String) → m (Except Failure (List Path))
  | [] => return .ok []
  | (path, text) :: files => do
    match ← sink.write path text with
    | .error e => return .error (.disk e)
    | .ok written =>
      match ← writeAll sink files with
      | .error f => return .error f
      | .ok paths => return .ok (written :: paths)

/-- Writes generated files, and answers their paths. -/
def writeFiles {m : Type → Type} [Monad m] (sink : Sink m) (files : GeneratedFiles) :
    m (Except Failure (List Path)) :=
  match resolved files.entries with
  | .error f => return .error f
  | .ok texts => writeAll sink texts

/-- Texts under the components of their paths, each with its path as it was first
spelled. -/
abbrev MemoryFiles : Type := Listing (List Component) (Path × String)

/-- The memory with a text written to a path. -/
def remember (files : MemoryFiles) (path : Path) (text : String) : MemoryFiles :=
  files.update path.components fun
    | none => (path, text)
    | some (spelled, _) => (spelled, text)

/-- A sink that keeps the texts in memory and never fails. -/
def memorySink : Sink (StateM MemoryFiles) where
  write path text := fun files => (.ok path, remember files path text)

/-- A sink that writes below a directory. -/
def diskSink {m : Type → Type} [Monad m] [Disk.Access m] (root : Path) : Sink m where
  write path text := do
    let file := root.join path
    match ← Disk.makeDirectories (m := m) (file.ancestors.drop 1) with
    | .error e => return .error e
    | .ok () =>
      match ← Disk.Access.writeText file text with
      | .error e => return .error e
      | .ok () => return .ok file

end Output
end ModelStubs
