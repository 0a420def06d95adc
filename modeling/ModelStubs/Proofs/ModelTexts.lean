/-
# Model values and their texts

The shapes of the model format are lawful and no higher than six brackets, so that a
value of any of its types is read back from its compact text. The strings are any
strings, since the quotes, backslashes and control characters in them are escaped, and
the bounds of a cardinality are any counts of 32 bits.

Two spellings are worth a look. A cardinality without a flag has no member `many`, while
a missing upper bound is written as null, and both come back as nothing. An attribute
always has its cardinality written, so that the default that reading would put in for a
missing one, exactly once, is never confused with another.

Key theorems: `Model.compact_reads_back`.
-/
import ModelStubs.Model.Document
import ModelStubs.Proofs.Json.RoundTrip

namespace ModelStubs
namespace Model

/-- The kind of an element is no field of any of the four records, and the other shapes
are records inside it. -/
theorem lawful_document : Document.shape.Lawful := by decide

theorem height_document : Document.shape.height ≤ Json.nesting := by decide

/-- A document that was written is read back. -/
theorem Document.ofText_compact (d : Document) :
    Document.ofText (Document.shape.compact d) = .ok d :=
  Json.Shape.ofText_compact lawful_document height_document d

/-- **Reading undoes writing in the whole model format.** A document, an element of any
kind, a class, an enumeration, a data type, a function, an attribute, a cardinality, a
package and a placement are each read back from their compact text. -/
theorem compact_reads_back :
    (∀ d : Document, Document.ofText (Document.shape.compact d) = .ok d) ∧
    (∀ e : Element, Element.shape.ofText (Element.shape.compact e) = .ok e) ∧
    (∀ c : DataClass, DataClass.shape.ofText (DataClass.shape.compact c) = .ok c) ∧
    (∀ e : Enumeration, Enumeration.shape.ofText (Enumeration.shape.compact e) = .ok e) ∧
    (∀ d : DataType, DataType.shape.ofText (DataType.shape.compact d) = .ok d) ∧
    (∀ f : Signature, Signature.shape.ofText (Signature.shape.compact f) = .ok f) ∧
    (∀ a : Attribute, Attribute.shape.ofText (Attribute.shape.compact a) = .ok a) ∧
    (∀ c : Cardinality, Cardinality.shape.ofText (Cardinality.shape.compact c) = .ok c) ∧
    (∀ p : Package, Package.shape.ofText (Package.shape.compact p) = .ok p) ∧
    (∀ p : Placement, Placement.shape.ofText (Placement.shape.compact p) = .ok p) := by
  refine ⟨Document.ofText_compact, ?_, ?_, ?_, ?_, ?_, ?_, ?_, ?_, ?_⟩
  · exact Json.Shape.ofText_compact (by decide) (by decide)
  · exact Json.Shape.ofText_compact (by decide) (by decide)
  · exact Json.Shape.ofText_compact (by decide) (by decide)
  · exact Json.Shape.ofText_compact (by decide) (by decide)
  · exact Json.Shape.ofText_compact (by decide) (by decide)
  · exact Json.Shape.ofText_compact (by decide) (by decide)
  · exact Json.Shape.ofText_compact (by decide) (by decide)
  · exact Json.Shape.ofText_compact (by decide) (by decide)
  · exact Json.Shape.ofText_compact (by decide) (by decide)

end Model
end ModelStubs
