/-
# Text buffers

A buffer collects the text of one file and knows how deep the next line is to be
indented: one tab for each step.

Key definitions: `Stub.Buffer`, `Stub.Buffer.add`, `Stub.Buffer.addLine`,
`Stub.Buffer.addIndented`, `Stub.Buffer.indent`, `Stub.Buffer.dedent`.
-/
namespace ModelStubs
namespace Stub

/-- What ends a line in every generated file. -/
def lineSeparator : String := "\n"

/-- The text so far and the depth of the next line. -/
structure Buffer where
  text : String
  depth : Nat
deriving DecidableEq, Repr

namespace Buffer

/-- The buffer without text. -/
def empty : Buffer := ⟨"", 0⟩

/-- The given number of tabs. -/
def tabs (n : Nat) : String := String.ofList (List.replicate n '\t')

/-- Adds a text as it is. -/
def add (b : Buffer) (s : String) : Buffer := { b with text := b.text ++ s }

/-- Adds a text behind the tabs of the present depth. -/
def addIndented (b : Buffer) (s : String) : Buffer := b.add (tabs b.depth ++ s)

/-- Adds a line behind the tabs of the present depth. -/
def addLine (b : Buffer) (s : String) : Buffer := (b.addIndented s).add lineSeparator

/-- One step deeper. -/
def indent (b : Buffer) : Buffer := { b with depth := b.depth + 1 }

/-- One step back; at depth zero nothing changes. -/
def dedent (b : Buffer) : Buffer := { b with depth := b.depth - 1 }

end Buffer
end Stub
end ModelStubs
