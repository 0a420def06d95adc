/-
# Elements of a model

A model consists of classes with attributes, enumerations of named values, data
types of its own, and function signatures. In JSON an element says its kind under
the tag `kind`.

Key definitions: `Model.Attribute`, `Model.DataClass`, `Model.Enumeration`,
`Model.DataType`, `Model.Signature`, `Model.Element`, `Model.Element.shape`.
-/
import ModelStubs.Model.Cardinality

namespace ModelStubs
namespace Model

open Json (Shape RecordShape Fields Field Variants)

/-- An attribute of a class or a parameter of a function. -/
structure Attribute where
  name : String
  /-- The name of a primitive type or of a type of the model. -/
  type : String
  card : Cardinality
deriving DecidableEq, Repr

/-- A name, a type, and exactly once unless said otherwise. -/
def Attribute.record : RecordShape Attribute :=
  .mk "RegularAttribute"
    (.cons (.required String "name") (.scalar .text)
      (.cons (.required String "type") (.scalar .text)
        (.cons (.default "card" Cardinality.single) Cardinality.shape .nil)))
    { parts := fun a => (a.name, a.type, a.card, ())
      whole := fun (name, type, card, ()) => ⟨name, type, card⟩ }

/-- The spelling of an attribute. -/
def Attribute.shape : Shape Attribute := .record Attribute.record

/-- A class with its attributes in order. -/
structure DataClass where
  name : String
  /-- What the class is, in free text. -/
  definition : String
  attributes : List Attribute
deriving DecidableEq, Repr

/-- A class without definition and attributes. -/
def DataClass.named (name : String) : DataClass := ⟨name, "", []⟩

/-- The class with another definition. -/
def DataClass.withDefinition (c : DataClass) (definition : String) : DataClass :=
  { c with definition := definition }

/-- The class with one attribute more. -/
def DataClass.withAttribute (c : DataClass) (a : Attribute) : DataClass :=
  { c with attributes := c.attributes ++ [a] }

/-- A name, and a definition and attributes that may be absent. -/
def DataClass.record : RecordShape DataClass :=
  .mk "ClassDef"
    (.cons (.required String "name") (.scalar .text)
      (.cons (.default "definition" "") (.scalar .text)
        (.cons (.default "attributes" []) (.list Attribute.shape) .nil)))
    { parts := fun c => (c.name, c.definition, c.attributes, ())
      whole := fun (name, definition, attributes, ()) => ⟨name, definition, attributes⟩ }

/-- The spelling of a class without its kind. -/
def DataClass.shape : Shape DataClass := .record DataClass.record

/-- Named values. -/
structure Enumeration where
  name : String
  definition : String
  values : List String
deriving DecidableEq, Repr

/-- A name, and a definition and values that may be absent. -/
def Enumeration.record : RecordShape Enumeration :=
  .mk "EnumDef"
    (.cons (.required String "name") (.scalar .text)
      (.cons (.default "definition" "") (.scalar .text)
        (.cons (.default "values" []) (.list (.scalar .text)) .nil)))
    { parts := fun e => (e.name, e.definition, e.values, ())
      whole := fun (name, definition, values, ()) => ⟨name, definition, values⟩ }

/-- The spelling of an enumeration without its kind. -/
def Enumeration.shape : Shape Enumeration := .record Enumeration.record

/-- A basic type that the model declares. -/
structure DataType where
  name : String
  definition : String
deriving DecidableEq, Repr

/-- A name, and a definition that may be absent. -/
def DataType.record : RecordShape DataType :=
  .mk "DataTypeDef"
    (.cons (.required String "name") (.scalar .text)
      (.cons (.default "definition" "") (.scalar .text) .nil))
    { parts := fun d => (d.name, d.definition, ())
      whole := fun (name, definition, ()) => ⟨name, definition⟩ }

/-- The spelling of a data type without its kind. -/
def DataType.shape : Shape DataType := .record DataType.record

/-- The signature of a function. -/
structure Signature where
  name : String
  definition : String
  inputs : List Attribute
  output : Option Attribute
deriving DecidableEq, Repr

/-- A name, and a definition, inputs and an output that may be absent. -/
def Signature.record : RecordShape Signature :=
  .mk "FunctionDef"
    (.cons (.required String "name") (.scalar .text)
      (.cons (.default "definition" "") (.scalar .text)
        (.cons (.default "inputs" []) (.list Attribute.shape)
          (.cons (.default "output" none) (.optional Attribute.shape) .nil))))
    { parts := fun f => (f.name, f.definition, f.inputs, f.output, ())
      whole := fun (name, definition, inputs, output, ()) => ⟨name, definition, inputs, output⟩ }

/-- The spelling of a function without its kind. -/
def Signature.shape : Shape Signature := .record Signature.record

/-- An element of a model. -/
inductive Element
  | ofClass (c : DataClass)
  | ofEnumeration (e : Enumeration)
  | ofDataType (d : DataType)
  | ofFunction (f : Signature)
deriving DecidableEq, Repr

namespace Element

/-- The name of the element, whatever its kind. -/
def name : Element → String
  | ofClass c => c.name
  | ofEnumeration e => e.name
  | ofDataType d => d.name
  | ofFunction f => f.name

/-- The class, if the element is one. -/
def class? : Element → Option DataClass
  | ofClass c => some c
  | _ => none

/-- The four kinds of elements under their labels. -/
def variants : Variants [DataClass, Enumeration, DataType, Signature] :=
  .cons "class" DataClass.record
    (.cons "enum" Enumeration.record
      (.cons "dataType" DataType.record
        (.cons "function" Signature.record .nil)))

/-- An element as one of the four records. -/
def parts : Element → Json.Choice [DataClass, Enumeration, DataType, Signature]
  | ofClass c => .inl c
  | ofEnumeration e => .inr (.inl e)
  | ofDataType d => .inr (.inr (.inl d))
  | ofFunction f => .inr (.inr (.inr (.inl f)))

/-- The element that one of the four records is. -/
def whole : Json.Choice [DataClass, Enumeration, DataType, Signature] → Element
  | .inl c => ofClass c
  | .inr (.inl e) => ofEnumeration e
  | .inr (.inr (.inl d)) => ofDataType d
  | .inr (.inr (.inr (.inl f))) => ofFunction f

theorem whole_parts : ∀ e : Element, whole e.parts = e
  | ofClass _ => rfl
  | ofEnumeration _ => rfl
  | ofDataType _ => rfl
  | ofFunction _ => rfl

theorem parts_whole : ∀ x : Json.Choice [DataClass, Enumeration, DataType, Signature],
    (whole x).parts = x
  | .inl _ => rfl
  | .inr (.inl _) => rfl
  | .inr (.inr (.inl _)) => rfl
  | .inr (.inr (.inr (.inl _))) => rfl

/-- The spelling of an element. -/
def shape : Shape Element :=
  .tagged "RootElement" "kind" variants ⟨parts, whole, whole_parts, parts_whole⟩

end Element
end Model
end ModelStubs
