/-
# Stubs

The stub of a class is a small text file: the package, the comment, and a body with
one line for each attribute that occurs once or many times. An attribute that can
do neither is left out.

Key definitions: `Stub.fileName`, `Stub.declaration?`, `Stub.classText`,
`Stub.generator`.
-/
import ModelStubs.Generator.Basic
import ModelStubs.Stub.Comment
import ModelStubs.Stub.TypeName

namespace ModelStubs
namespace Stub

open Model (Attribute DataClass Element Placement)

/-- What the names of stub files end in. -/
def extension : String := "sample"

/-- The key of the stub of a class. -/
def fileName (p : Placement) (c : DataClass) : String :=
  p.model.directory ++ "/" ++ c.name ++ "." ++ extension

/-- The declaration of an attribute, if it has one. -/
def declaration? (a : Attribute) : Option String :=
  if a.card.isSingle then some (targetType a.type ++ " " ++ a.name)
  else if a.card.isMany then some ("List<" ++ targetType a.type ++ "> " ++ a.name)
  else none

/-- Adds the declaration of an attribute, if it has one. -/
def addAttribute (b : Buffer) (a : Attribute) : Buffer :=
  match declaration? a with
  | some line => b.addLine line
  | none => b

/-- Everything in a stub before its body. -/
def addHeader (b : Buffer) (p : Placement) (c : DataClass) (version : String) : Buffer :=
  (((b.add ("package " ++ p.model.name)).add lineSeparator).add lineSeparator).add
    (comment c.definition version)

/-- The body of a stub. -/
def addBody (b : Buffer) (c : DataClass) : Buffer :=
  let opened := (b.addLine ("class " ++ c.name ++ " \x7b")).indent
  (c.attributes.foldl addAttribute opened).dedent.addLine "\x7d"

/-- The text of the stub of a class. -/
def classText (p : Placement) (c : DataClass) (version : String) : String :=
  (addBody (addHeader Buffer.empty p c version) c).text

/-- The stubs of the classes among the elements. Of classes with the same name the
last one counts. -/
def stubs (p : Placement) (elements : List Element) (version : String) : GeneratedFiles :=
  Listing.ofList <| (elements.filterMap Element.class?).map fun c =>
    (fileName p c, classText p c version)

/-- The generator of stubs. -/
def generator : Generator := ⟨"Sample", stubs⟩

end Stub
end ModelStubs
