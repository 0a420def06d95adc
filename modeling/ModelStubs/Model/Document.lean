/-
# Documents

A document holds a model: a namespace, a label for its version and its elements,
each of which may be absent.

Key definitions: `Model.Document`, `Model.Document.ofText`, `Model.Document.classes`.
-/
import ModelStubs.Model.Element
import ModelStubs.Model.Package

namespace ModelStubs
namespace Model

open Json (Shape RecordShape Fields Field)

/-- A model as it is stored. -/
structure Document where
  namespaceName : String
  version : String
  elements : List Element
deriving DecidableEq, Repr

namespace Document

/-- A namespace, a version and elements, each with a default. -/
def record : RecordShape Document :=
  .mk "ModelDocument"
    (.cons (.default "namespace" "") (.scalar .text)
      (.cons (.default "version" "") (.scalar .text)
        (.cons (.default "elements" []) (.list Element.shape) .nil)))
    { parts := fun d => (d.namespaceName, d.version, d.elements, ())
      whole := fun (namespaceName, version, elements, ()) => ⟨namespaceName, version, elements⟩ }

/-- The spelling of a document. -/
def shape : Shape Document := .record record

/-- The document that a text spells. -/
def ofText (source : String) : Except Json.Fault Document := shape.ofText source

/-- Where the code generated from the document goes. -/
def placement (d : Document) : Placement := .ofNamespace d.namespaceName

/-- The classes among the elements, in order. -/
def classes (d : Document) : List DataClass := d.elements.filterMap Element.class?

end Document
end Model
end ModelStubs
