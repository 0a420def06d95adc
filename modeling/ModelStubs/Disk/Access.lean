/-
# Access to files

What the program asks of the place where files are kept. A file tree answers these
requests and changes with them; the system's own files answer them too. Everything
the program does to files is written once, over this interface.

Key definitions: `Disk.Access`, `Disk.makeDirectories`.
-/
import ModelStubs.Disk.Walk

namespace ModelStubs
namespace Disk

/-- Requests to files and directories. Links are followed. -/
class Access (m : Type → Type) where
  /-- A path leads to something. -/
  holds : Path → m Bool
  /-- A path leads to a directory. -/
  isDirectory : Path → m Bool
  /-- The text of a file. -/
  readText : Path → m (Except Error String)
  /-- Makes one directory. -/
  makeDirectory : Path → m (Except Error Unit)
  /-- Makes a file or replaces what it holds. -/
  writeText : Path → String → m (Except Error Unit)
  /-- The files below a directory, or the file itself under no name, in the order of
  a walk. -/
  filesBelow : Path → m (List Names)

instance : Access (StateM FileTree) where
  holds p := fun t => (t.holds p, t)
  isDirectory p := fun t => (t.isDirectory p, t)
  readText p := fun t => (t.readText p, t)
  makeDirectory p := fun t => t.makeDirectory p
  writeText p s := fun t => t.writeText p s
  filesBelow p := fun t => (t.filesBelow p, t)

variable {m : Type → Type} [Monad m] [Access m]

/-- A directory that is there already need not be made. -/
def unlessDirectory (p : Path) (e : Error) : m (Except Error Unit) := do
  if e = .alreadyExists then
    if ← Access.isDirectory p then return .ok ()
  return .error e

/-- Makes a directory and those above it that are missing. The list starts with the
path itself and goes on with those above it. -/
def makeDirectories : List Path → m (Except Error Unit)
  | [] => return .ok ()
  | p :: above => do
    if p.text.isEmpty then return .ok ()
    match ← Access.makeDirectory p with
    | .ok () => return .ok ()
    | .error .notFound =>
      match ← makeDirectories above with
      | .error e => return .error e
      | .ok () =>
        match ← Access.makeDirectory p with
        | .ok () => return .ok ()
        | .error e => unlessDirectory p e
    | .error e => unlessDirectory p e

end Disk
end ModelStubs
