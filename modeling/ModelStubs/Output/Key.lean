/-
# Keys of generated files

A key names a generated file by the parts of a path, with slashes between them. The
path is put together part by part, and a key is refused if it could lead out of the
directory that the files are written to: if it is empty, if it starts with a slash or
a backslash, or if one of its parts, read as a path of its own, is anything but the
name of a file or directory. Repeated slashes count as one.

Key definitions: `Output.keyParts`, `Output.soleName?`, `Output.pushParts`,
`Output.outputPath`.
-/
import ModelStubs.Failure

namespace ModelStubs
namespace Output

open Disk (Path)

/-- The parts of a key between its slashes, without the empty ones. -/
def keyParts (key : String) : List (List Char) :=
  (Text.pieces '/' key.toList).filter fun p => !p.isEmpty

/-- Whether a key has to be refused because of how it starts. -/
def startsOutside (key : String) : Bool :=
  match key.toList with
  | [] => true
  | c :: _ => c == '/' || c == '\\'

/-- The name that a part has, if as a path it names this and nothing else. -/
def soleName? (part : List Char) : Option String :=
  match Path.components ⟨String.ofList part⟩ with
  | [.name s] => some s
  | _ => none

/-- The path with the parts of the key put behind it, unless one of them is no name. -/
def pushParts (key : String) (path : Path) : List (List Char) → Except Failure Path
  | [] => .ok path
  | part :: parts =>
    match soleName? part with
    | some s => pushParts key (path.child s) parts
    | none => .error (.invalidOutputPath key)

/-- The path of the file with the given key. -/
def outputPath (key : String) : Except Failure Path :=
  if startsOutside key then .error (.invalidOutputPath key)
  else pushParts key ⟨""⟩ (keyParts key)

end Output
end ModelStubs
