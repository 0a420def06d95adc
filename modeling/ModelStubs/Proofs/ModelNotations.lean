/-
# Documents in either notation

A document, an attribute, a cardinality and the body of an element may each be written as
an object or as a list, with fields left out that have their defaults. What may be left out
is stated here for each type, apart from the shapes: the empty string for a namespace, a
version and a definition, the empty list for elements, attributes, values and inputs, null
for an output, an upper bound and a flag, zero for a lower bound, and exactly once for a
cardinality.

The last of these does not agree with the others: a cardinality that is missing stands for
exactly once, and one that is written without any of its fields for any number of times. An
attribute may leave out the one, a cardinality leaves out the parts of the other, and each
text is read as what was meant (`Model.Document.ofText_of_spelled`).

Key definitions: `Model.Cardinality.spellings`, `Model.Attribute.spellings`,
`Model.Element.spellings`, `Model.Document.spellings`.
Key theorems: `Model.Document.ofText_of_spelled`.
-/
import ModelStubs.Proofs.Json.Notations
import ModelStubs.Proofs.Json.TaggedBodies
import ModelStubs.Proofs.ModelTexts

namespace ModelStubs
namespace Model

open Json (FieldSpelling InEntries InMembers RecordSpelled Shape Spelled.count Spelled.flag
  Spelled.list Spelled.optional Spelled.record Spelled.text Takes Tree Variants quote)

/-! ### Spellings of the types -/

/-- Two bounds and a flag, none of which needs to be written. -/
def Cardinality.spellings (c : Cardinality) : List FieldSpelling :=
  [.default "inf" Spelled.count c.inf 0,
    .default "sup" (Spelled.optional Spelled.count) c.sup none,
    .default "many" (Spelled.optional Spelled.flag) c.many none]

/-- A name and a type, and a cardinality unless it is exactly once. -/
def Attribute.spellings (a : Attribute) : List FieldSpelling :=
  [.required "name" Spelled.text a.name,
    .required "type" Spelled.text a.type,
    .default "card" (Spelled.record Cardinality.spellings) a.card ⟨1, some 1, none⟩]

/-- A name, a definition and attributes. -/
def DataClass.spellings (c : DataClass) : List FieldSpelling :=
  [.required "name" Spelled.text c.name,
    .default "definition" Spelled.text c.definition "",
    .default "attributes" (Spelled.list (Spelled.record Attribute.spellings)) c.attributes []]

/-- A name, a definition and values. -/
def Enumeration.spellings (e : Enumeration) : List FieldSpelling :=
  [.required "name" Spelled.text e.name,
    .default "definition" Spelled.text e.definition "",
    .default "values" (Spelled.list Spelled.text) e.values []]

/-- A name and a definition. -/
def DataType.spellings (d : DataType) : List FieldSpelling :=
  [.required "name" Spelled.text d.name,
    .default "definition" Spelled.text d.definition ""]

/-- A name, a definition, inputs and an output. -/
def Signature.spellings (f : Signature) : List FieldSpelling :=
  [.required "name" Spelled.text f.name,
    .default "definition" Spelled.text f.definition "",
    .default "inputs" (Spelled.list (Spelled.record Attribute.spellings)) f.inputs [],
    .default "output" (Spelled.optional (Spelled.record Attribute.spellings)) f.output none]

/-- The kind of an element, and the fields that an element of the kind has. -/
def Element.spellings : Element → List FieldSpelling
  | .ofClass c => .required "kind" Spelled.text "class" :: c.spellings
  | .ofEnumeration e => .required "kind" Spelled.text "enum" :: e.spellings
  | .ofDataType d => .required "kind" Spelled.text "dataType" :: d.spellings
  | .ofFunction f => .required "kind" Spelled.text "function" :: f.spellings

/-- A namespace, a version and elements, none of which needs to be written. -/
def Document.spellings (d : Document) : List FieldSpelling :=
  [.default "namespace" Spelled.text d.namespaceName "",
    .default "version" Spelled.text d.version "",
    .default "elements" (Spelled.list (Spelled.record Element.spellings)) d.elements []]

/-! ### The shapes take the spellings -/

section

variable {room : Nat}

theorem Cardinality.takes (hroom : 1 ≤ room) :
    Takes room (Spelled.record Cardinality.spellings) (Cardinality.shape.means room) := by
  intro t c ht
  have hcount : ∀ t (n : UInt32), Spelled.count t n → ¬ t.IsNull := by
    rintro _ n rfl
    exact Json.not_isNull_of_head (Json.head_count n) nofun
  have hflag : ∀ t (b : Bool), Spelled.flag t b → ¬ t.IsNull := by
    rintro _ b rfl
    exact Json.not_isNull_of_head (Json.head_flag b) nofun
  refine Json.RecordShape.takes (by omega) (by decide) ?_ ht
  exact .default rfl rfl Json.takes_count
    (.default rfl rfl (Json.takes_optional Json.takes_count hcount)
      (.default rfl rfl (Json.takes_optional Json.takes_flag hflag) rfl))

theorem Attribute.takes (hroom : 2 ≤ room) :
    Takes room (Spelled.record Attribute.spellings) (Attribute.shape.means room) := by
  intro t a ht
  refine Json.RecordShape.takes (by omega) (by decide) ?_ ht
  exact .required rfl Json.takes_text (.required rfl Json.takes_text
    (.default rfl rfl (Cardinality.takes (by omega)) rfl))

/-- A list of attributes is one bracket higher. -/
theorem takes_attributes (hroom : 3 ≤ room) :
    Takes room (Spelled.list (Spelled.record Attribute.spellings))
      ((Shape.list Attribute.shape).means room) :=
  Json.takes_list (by omega) (Attribute.takes (by omega))

theorem DataClass.takes (hroom : 4 ≤ room) :
    Takes room (Spelled.record DataClass.spellings) (DataClass.record.means room) := by
  intro t c ht
  refine Json.RecordShape.takes (by omega) (by decide) ?_ ht
  exact .required rfl Json.takes_text (.default rfl rfl Json.takes_text
    (.default rfl rfl (takes_attributes (by omega)) rfl))

theorem Enumeration.takes (hroom : 2 ≤ room) :
    Takes room (Spelled.record Enumeration.spellings) (Enumeration.record.means room) := by
  intro t e ht
  refine Json.RecordShape.takes (by omega) (by decide) ?_ ht
  exact .required rfl Json.takes_text (.default rfl rfl Json.takes_text
    (.default rfl rfl (Json.takes_list (by omega) Json.takes_text) rfl))

theorem DataType.takes (hroom : 1 ≤ room) :
    Takes room (Spelled.record DataType.spellings) (DataType.record.means room) := by
  intro t d ht
  refine Json.RecordShape.takes (by omega) (by decide) ?_ ht
  exact .required rfl Json.takes_text (.default rfl rfl Json.takes_text rfl)

theorem Signature.takes (hroom : 4 ≤ room) :
    Takes room (Spelled.record Signature.spellings) (Signature.record.means room) := by
  intro t f ht
  have hattribute : ∀ t a, Spelled.record Attribute.spellings t a → ¬ t.IsNull :=
    fun _ _ h => Json.not_isNull_of_recordSpelled h
  refine Json.RecordShape.takes (by omega) (by decide) ?_ ht
  exact .required rfl Json.takes_text (.default rfl rfl Json.takes_text
    (.default rfl rfl (takes_attributes (by omega))
      (.default rfl rfl (Json.takes_optional (Attribute.takes (by omega)) hattribute) rfl)))

/-- An element is taken if its body is, under the label of its kind. -/
theorem Element.takes_body {e : Element} {label : String} {fs : List FieldSpelling}
    (hroom : room ≠ 0) (hkind : "kind" ∉ fs.map FieldSpelling.name)
    (h : ∀ t, RecordSpelled fs t → variants.Means room label t e.parts ∧ t.Readable room)
    {t : Tree} (ht : RecordSpelled (.required "kind" Spelled.text label :: fs) t) :
    Element.shape.means room t e ∧ t.Readable room := by
  obtain ⟨hmeans, hread⟩ := Json.takes_tagged hroom hkind h ht
  exact ⟨⟨_, hmeans, whole_parts e⟩, hread⟩

theorem Element.takes (hroom : 4 ≤ room) :
    Takes room (Spelled.record Element.spellings) (Element.shape.means room) := by
  intro t e ht
  have hopen : room ≠ 0 := by omega
  cases e with
  | ofClass c =>
    have hkind : "kind" ∉ c.spellings.map FieldSpelling.name := by simp [DataClass.spellings]
    refine Element.takes_body hopen hkind (fun t hbody => ?_) ht
    obtain ⟨hmeans, hread⟩ := DataClass.takes hroom t c hbody
    exact ⟨Variants.means_inl.mpr ⟨rfl, hmeans⟩, hread⟩
  | ofEnumeration e =>
    have hkind : "kind" ∉ e.spellings.map FieldSpelling.name := by simp [Enumeration.spellings]
    refine Element.takes_body hopen hkind (fun t hbody => ?_) ht
    obtain ⟨hmeans, hread⟩ := Enumeration.takes (Nat.le_trans (by decide : 2 ≤ 4) hroom) t e hbody
    exact ⟨Variants.means_inr.mpr ⟨by decide, Variants.means_inl.mpr ⟨rfl, hmeans⟩⟩, hread⟩
  | ofDataType d =>
    have hkind : "kind" ∉ d.spellings.map FieldSpelling.name := by simp [DataType.spellings]
    refine Element.takes_body hopen hkind (fun t hbody => ?_) ht
    obtain ⟨hmeans, hread⟩ := DataType.takes (Nat.le_trans (by decide : 1 ≤ 4) hroom) t d hbody
    exact ⟨Variants.means_inr.mpr ⟨by decide, Variants.means_inr.mpr ⟨by decide,
      Variants.means_inl.mpr ⟨rfl, hmeans⟩⟩⟩, hread⟩
  | ofFunction f =>
    have hkind : "kind" ∉ f.spellings.map FieldSpelling.name := by simp [Signature.spellings]
    refine Element.takes_body hopen hkind (fun t hbody => ?_) ht
    obtain ⟨hmeans, hread⟩ := Signature.takes hroom t f hbody
    exact ⟨Variants.means_inr.mpr ⟨by decide, Variants.means_inr.mpr ⟨by decide,
      Variants.means_inr.mpr ⟨by decide, Variants.means_inl.mpr ⟨rfl, hmeans⟩⟩⟩⟩, hread⟩

end

/-- **A document is read from every text that spells it**, whatever the notation of each
record in it and whatever fields with their defaults are left out. -/
theorem Document.ofText_of_spelled {d : Document} {t : Tree} {source : String}
    (h : RecordSpelled d.spellings t) (ht : t.Text source) :
    Document.ofText source = .ok d := by
  have hmeans : Document.shape.means Json.nesting t d ∧ t.Readable Json.nesting := by
    refine Json.RecordShape.takes (by decide) (by decide) ?_ h
    exact .default rfl rfl Json.takes_text (.default rfl rfl Json.takes_text
      (.default rfl rfl (Json.takes_list (by decide) (Element.takes (by decide))) rfl))
  exact (Shape.ofText_iff lawful_document ht).mpr hmeans.1

/-! ### A document in mixed notations -/

/-- A document with a class of two attributes and a function. -/
def mixedDocument : Document :=
  ⟨"", "1", [.ofClass ⟨"A", "", [⟨"x", "string", .single⟩, ⟨"y", "string", .unbounded⟩]⟩,
    .ofFunction ⟨"f", "", [], some ⟨"r", "int", .optional⟩⟩]⟩

/-- Two attributes, the first as a list without its cardinality and the second as an object
with an empty one. -/
def mixedAttributes : Tree :=
  .list [.list [.scalar (quote "x"), .scalar (quote "string")],
    .object [(quote "card", .object []), (quote "type", .scalar (quote "string")),
      (quote "name", .scalar (quote "y"))]]

/-- A class as a list that starts with its kind. -/
def mixedClass : Tree :=
  .list [.scalar (quote "class"), .scalar (quote "A"), .scalar (quote ""), mixedAttributes]

/-- An attribute as a list, and its cardinality as well. -/
def mixedOutput : Tree :=
  .list [.scalar (quote "r"), .scalar (quote "int"), .list [.scalar ['0'], .scalar ['1']]]

/-- A function as an object that ends with its kind. -/
def mixedFunction : Tree :=
  .object [(quote "output", mixedOutput), (quote "name", .scalar (quote "f")),
    (quote "kind", .scalar (quote "function"))]

def mixedTree : Tree :=
  .object [(quote "elements", .list [mixedClass, mixedFunction]),
    (quote "version", .scalar (quote "1"))]

/-- The text of the tree. -/
def mixedText : String :=
  "\x7b\"elements\":[[\"class\",\"A\",\"\",[[\"x\",\"string\"]," ++
    "\x7b\"card\":\x7b\x7d,\"type\":\"string\",\"name\":\"y\"\x7d]]," ++
    "\x7b\"output\":[\"r\",\"int\",[0,1]],\"name\":\"f\",\"kind\":\"function\"\x7d]," ++
    "\"version\":\"1\"\x7d"

theorem proper_mixedTree : mixedTree.Proper := by
  have htext := Tree.proper_quote
  have hattributes : mixedAttributes.Proper := by
    refine .list (List.forall_mem_cons.mpr ⟨.list ?_, List.forall_mem_singleton.mpr ?_⟩)
    · exact List.forall_mem_cons.mpr ⟨htext _, List.forall_mem_singleton.mpr (htext _)⟩
    · exact .cons Tree.proper_nil (.cons (htext _) (.cons (htext _) Tree.proper_nil))
  have hclass : mixedClass.Proper :=
    .list (List.forall_mem_cons.mpr ⟨htext _, List.forall_mem_cons.mpr ⟨htext _,
      List.forall_mem_cons.mpr ⟨htext _, List.forall_mem_singleton.mpr hattributes⟩⟩⟩)
  have hcard : (Tree.list [.scalar ['0'], .scalar ['1']]).Proper :=
    .list (List.forall_mem_cons.mpr ⟨.scalar ⟨⟨'0', [], rfl, by decide⟩, rfl⟩,
      List.forall_mem_singleton.mpr (.scalar ⟨⟨'1', [], rfl, by decide⟩, rfl⟩)⟩)
  have houtput : mixedOutput.Proper :=
    .list (List.forall_mem_cons.mpr ⟨htext _, List.forall_mem_cons.mpr ⟨htext _,
      List.forall_mem_singleton.mpr hcard⟩⟩)
  have hfunction : mixedFunction.Proper :=
    .cons houtput (.cons (htext _) (.cons (htext _) Tree.proper_nil))
  exact .cons (.list (List.forall_mem_cons.mpr ⟨hclass, List.forall_mem_singleton.mpr hfunction⟩))
    (.cons (htext _) Tree.proper_nil)

theorem text_mixedTree : mixedTree.Text mixedText := by
  have hcompact : String.ofList mixedTree.compact = mixedText := by decide +kernel
  exact hcompact ▸ proper_mixedTree.text

/-- The members may stand in the opposite order. -/
theorem recordSpelled_reverse {fs : List FieldSpelling} {ms : List (List Char × Tree)}
    (h : InMembers fs ms) : RecordSpelled fs (.object ms.reverse) := .object h (List.reverse_perm ms)

/-- A cardinality without any of its fields is any number of times. -/
theorem Cardinality.spelled_unbounded :
    RecordSpelled (Cardinality.unbounded).spellings (.object []) :=
  .object (.omitted rfl (.omitted rfl (.omitted rfl .nil))) (.refl _)

/-- The bounds stand in their order, and the flag is left out. -/
theorem Cardinality.spelled_optional :
    RecordSpelled (Cardinality.optional).spellings (.list [.scalar ['0'], .scalar ['1']]) :=
  .list (.written rfl (.written rfl (.ended (List.forall_mem_singleton.mpr rfl))))

theorem spelled_mixedAttributes :
    Spelled.list (Spelled.record Attribute.spellings) mixedAttributes
      [⟨"x", "string", .single⟩, ⟨"y", "string", .unbounded⟩] := by
  have hx : InEntries (Attribute.spellings ⟨"x", "string", .single⟩)
      [.scalar (quote "x"), .scalar (quote "string")] :=
    .written (Json.spelled_quote _) (.written (Json.spelled_quote _)
      (.ended (List.forall_mem_singleton.mpr rfl)))
  have hy : InMembers (Attribute.spellings ⟨"y", "string", .unbounded⟩)
      [(quote "name", .scalar (quote "y")), (quote "type", .scalar (quote "string")),
        (quote "card", .object [])] :=
    .written (Json.stringToken_quote _) (Json.spelled_quote _)
      (.written (Json.stringToken_quote _) (Json.spelled_quote _)
        (.written (Json.stringToken_quote _) Cardinality.spelled_unbounded .nil))
  exact ⟨_, rfl, .cons (.list hx) (.cons (recordSpelled_reverse hy) .nil)⟩

theorem spelled_mixedElements : Spelled.list (Spelled.record Element.spellings)
    (.list [mixedClass, mixedFunction]) mixedDocument.elements := by
  have hclass : InEntries (Element.spellings (.ofClass
      ⟨"A", "", [⟨"x", "string", .single⟩, ⟨"y", "string", .unbounded⟩]⟩))
      [.scalar (quote "class"), .scalar (quote "A"), .scalar (quote ""), mixedAttributes] :=
    .written (Json.spelled_quote _) (.written (Json.spelled_quote _)
      (.written (Json.spelled_quote _) (.written spelled_mixedAttributes
        (.ended (List.forall_mem_nil _)))))
  have houtput : RecordSpelled (Attribute.spellings ⟨"r", "int", .optional⟩) mixedOutput :=
    .list (.written (Json.spelled_quote _) (.written (Json.spelled_quote _)
      (.written Cardinality.spelled_optional (.ended (List.forall_mem_nil _)))))
  have hfunction : InMembers (Element.spellings (.ofFunction
      ⟨"f", "", [], some ⟨"r", "int", .optional⟩⟩))
      [(quote "kind", .scalar (quote "function")), (quote "name", .scalar (quote "f")),
        (quote "output", mixedOutput)] :=
    .written (Json.stringToken_quote _) (Json.spelled_quote _)
      (.written (Json.stringToken_quote _) (Json.spelled_quote _) (.omitted rfl (.omitted rfl
        (.written (Json.stringToken_quote _) houtput .nil))))
  exact ⟨_, rfl, .cons (.list hclass) (.cons (recordSpelled_reverse hfunction) .nil)⟩

/-- The document is read from its text in mixed notations. -/
theorem Document.ofText_of_spelled_mixed : RecordSpelled mixedDocument.spellings mixedTree ∧
    mixedTree.Text mixedText ∧ Document.ofText mixedText = .ok mixedDocument := by
  have hmembers : InMembers mixedDocument.spellings
      [(quote "version", .scalar (quote "1")),
        (quote "elements", .list [mixedClass, mixedFunction])] :=
    .omitted rfl (.written (Json.stringToken_quote _) (Json.spelled_quote _)
      (.written (Json.stringToken_quote _) spelled_mixedElements .nil))
  have hspelled : RecordSpelled mixedDocument.spellings mixedTree :=
    recordSpelled_reverse hmembers
  exact ⟨hspelled, text_mixedTree, Document.ofText_of_spelled hspelled text_mixedTree⟩

end Model
end ModelStubs
