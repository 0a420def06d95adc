/-
# Elements and documents in other layouts

The text of an element is the text of its body with the kind as one member more. Read as
an element, the members are gathered first and looked at when the kind is known; read as
a body, they are looked at one by one, and the kind is passed over. Both readings give
the same (`Model.Element.reads_as_body`): an element is only choosier about members that
are no field, since it reads them all.

In a document the order of the members plays no role, and members that are no field may
be put in anywhere (`Model.Document.ofText_rearranged`). A document is six brackets high,
so that there is room for plain values of a hundred.

Key definitions: `Model.ReadsAsBody`, `Model.sampleClass`.
Key theorems: `Model.Element.reads_as_body`, `Model.Document.ofText_rearranged`.
-/
import ModelStubs.Proofs.Json.TaggedBodies
import ModelStubs.Proofs.ModelTexts

namespace ModelStubs
namespace Model

open Json (Shape RecordShape Variants Tree IsObjectText HasTag quote)

/-! ### A class as a tree -/

/-- A class with one attribute. -/
def sampleClass : DataClass := ⟨"A", "", [⟨"x", "string", .unbounded⟩]⟩

/-- The members of the cardinality. -/
def cardMembers : List (List Char × Tree) :=
  [(quote "inf", .scalar ['0']), (quote "sup", .scalar ['n', 'u', 'l', 'l'])]

/-- The members of the attribute around those of its cardinality. -/
def attributeMembers (ms : List (List Char × Tree)) : List (List Char × Tree) :=
  [(quote "name", .scalar (quote "x")), (quote "type", .scalar (quote "string")),
    (quote "card", .object ms)]

/-- The members of the class and its kind around those of its attribute. -/
def classMembers (ms : List (List Char × Tree)) : List (List Char × Tree) :=
  [(quote "kind", .scalar (quote "class")), (quote "name", .scalar (quote "A")),
    (quote "definition", .scalar (quote "")), (quote "attributes", .list [.object ms])]

/-- The members of a document around those of its only element. -/
def documentMembers (ms : List (List Char × Tree)) : List (List Char × Tree) :=
  [(quote "namespace", .scalar (quote "")), (quote "version", .scalar (quote "")),
    (quote "elements", .list [.object ms])]

section

variable {ms : List (List Char × Tree)}

theorem proper_card : (Tree.object cardMembers).Proper :=
  .cons (.scalar ⟨⟨'0', [], rfl, by decide⟩, rfl⟩)
    (.cons (.scalar ⟨⟨'n', _, rfl, by decide⟩, rfl⟩) Tree.proper_nil)

theorem proper_attribute (h : (Tree.object ms).Proper) :
    (Tree.object (attributeMembers ms)).Proper :=
  .cons (Tree.proper_quote _) (.cons (Tree.proper_quote _) (.cons h Tree.proper_nil))

theorem proper_class (h : (Tree.object ms).Proper) : (Tree.object (classMembers ms)).Proper :=
  .cons (Tree.proper_quote _) (.cons (Tree.proper_quote _) (.cons (Tree.proper_quote _)
    (.cons (.list (List.forall_mem_singleton.mpr h)) Tree.proper_nil)))

theorem proper_document (h : (Tree.object ms).Proper) :
    (Tree.object (documentMembers ms)).Proper :=
  .cons (Tree.proper_quote _) (.cons (Tree.proper_quote _)
    (.cons (.list (List.forall_mem_singleton.mpr h)) Tree.proper_nil))

theorem hasTag_class : HasTag "kind" "class" (classMembers ms) :=
  ⟨.scalar (quote "class"), by simp [classMembers, Json.valuesOf, Json.keyName_quote],
    Json.isText_quote _⟩

end

theorem onlyKnown_card : Cardinality.shape.OnlyKnown (.object cardMembers) :=
  Json.membersKnown_cons rfl trivial (Json.membersKnown_cons rfl trivial (List.forall_mem_nil _))

theorem onlyKnown_attribute :
    Attribute.shape.OnlyKnown (.object (attributeMembers cardMembers)) :=
  Json.membersKnown_cons rfl trivial (Json.membersKnown_cons rfl trivial
    (Json.membersKnown_cons rfl onlyKnown_card (List.forall_mem_nil _)))

theorem onlyKnown_class :
    Element.shape.OnlyKnown (.object (classMembers (attributeMembers cardMembers))) := by
  intro l name Ps hl hname hPs
  obtain ⟨l', hl', hclass⟩ := hasTag_class
  rw [hl', List.mem_singleton] at hl
  obtain rfl := hname.unique (hl ▸ hclass)
  cases hPs
  have hattributes : (Shape.list Attribute.shape).OnlyKnown
      (.list [.object (attributeMembers cardMembers)]) :=
    List.forall_mem_singleton.mpr onlyKnown_attribute
  exact Json.membersKnown_cons rfl trivial (Json.membersKnown_cons rfl trivial
    (Json.membersKnown_cons rfl trivial (Json.membersKnown_cons rfl hattributes
      (List.forall_mem_nil _))))

/-! ### Elements and their bodies -/

/-- Objects that are read as elements of a kind are read as their bodies, and the other
way round if the kind is there once and all other members are fields. -/
def ReadsAsBody {α : Type} (label : String) (s : Shape α) (wrap : α → Element) : Prop :=
  ∀ (source : String) (a : α),
    (IsObjectText source → Element.shape.ofText source = .ok (wrap a) →
      s.ofText source = .ok a) ∧
    ∀ ms, (Tree.object ms).Text source → HasTag "kind" label ms →
      Element.shape.OnlyKnown (.object ms) → s.ofText source = .ok a →
      Element.shape.ofText source = .ok (wrap a)

theorem lawful_element : Element.shape.Lawful := by decide

/-- Both readings agree if the record is the one that the label names. -/
theorem readsAsBody_of_means {α : Type} {label : String} {r : RecordShape α}
    {wrap : α → Element} (hlawful : (Shape.record r).Lawful)
    (h : ∀ l t a, Element.variants.Means Json.nesting l t (wrap a).parts ↔
      l = label ∧ r.means Json.nesting t a) : ReadsAsBody label (.record r) wrap := by
  intro source a
  constructor
  · intro hobject helement
    obtain ⟨ms, hms⟩ := Shape.exists_object_of_ofText helement hobject
    rw [Shape.ofText_iff lawful_element hms, Element.shape,
      Shape.means_object_iff lawful_element] at helement
    obtain ⟨l, -, -, hmeans⟩ := helement
    rw [Shape.ofText_iff hlawful hms, Shape.means]
    exact ((h l _ a).mp hmeans).2
  · intro ms hms htag hknown hbody
    rw [Shape.ofText_iff hlawful hms, Shape.means] at hbody
    rw [Shape.ofText_iff lawful_element hms, Element.shape,
      Shape.means_known_iff lawful_element htag hknown]
    exact (h label _ a).mpr ⟨rfl, hbody⟩

/-- **An element is read as its body is.** -/
theorem Element.reads_as_body :
    ReadsAsBody "class" DataClass.shape .ofClass ∧
      ReadsAsBody "enum" Enumeration.shape .ofEnumeration ∧
      ReadsAsBody "dataType" DataType.shape .ofDataType ∧
      ReadsAsBody "function" Signature.shape .ofFunction := by
  refine ⟨?_, ?_, ?_, ?_⟩
  · exact readsAsBody_of_means (by decide) fun l t c => Variants.means_inl
  · refine readsAsBody_of_means (by decide) fun l t e => ?_
    refine Variants.means_inr_iff ?_ Variants.means_inl
    decide
  · refine readsAsBody_of_means (by decide) fun l t d => ?_
    refine Variants.means_inr_iff ?_ (Variants.means_inr_iff ?_ Variants.means_inl)
    all_goals decide
  · refine readsAsBody_of_means (by decide) fun l t f => ?_
    refine Variants.means_inr_iff ?_
      (Variants.means_inr_iff ?_ (Variants.means_inr_iff ?_ Variants.means_inl))
    all_goals decide

/-- The class of the sample is read from its text as an element, and as a class. -/
theorem Element.reads_as_body_sampleClass :
    let source := Element.shape.compact (.ofClass sampleClass)
    let ms := classMembers (attributeMembers cardMembers)
    IsObjectText source ∧ (Tree.object ms).Text source ∧ HasTag "kind" "class" ms ∧
      Element.shape.OnlyKnown (.object ms) ∧ DataClass.shape.ofText source = .ok sampleClass ∧
      Element.shape.ofText source = .ok (.ofClass sampleClass) := by
  intro source ms
  have htext : (Tree.object ms).Text source :=
    (proper_class (proper_attribute proper_card)).text_compact (by decide +kernel)
  have hobject : IsObjectText source := htext.isObjectText_iff.mpr ⟨ms, rfl⟩
  have helement : Element.shape.ofText source = .ok (.ofClass sampleClass) :=
    Shape.ofText_compact lawful_element (by decide) _
  have hbody : DataClass.shape.ofText source = .ok sampleClass :=
    (Element.reads_as_body.1 source sampleClass).1 hobject helement
  exact ⟨hobject, htext, hasTag_class, onlyKnown_class, hbody,
    (Element.reads_as_body.1 source sampleClass).2 ms htext hasTag_class onlyKnown_class hbody⟩

/-! ### Documents -/

/-- **The order of members and unknown members do not matter.** A document that is read
has a tree, and it is read from every other layout of the tree as well. -/
theorem Document.ofText_rearranged {source : String} {d : Document}
    (h : Document.ofText source = .ok d) :
    (∃ t : Tree, t.Text source) ∧ ∀ (t t' : Tree) (source' : String), t.Text source →
      Document.shape.Varied 100 t t' → t'.Text source' → Document.ofText source' = .ok d := by
  refine ⟨Shape.exists_text_of_ofText h, fun t t' source' ht hv ht' => ?_⟩
  exact Shape.ofText_varied lawful_document (by decide) ht ht' hv h

/-- The members turned around, behind one that is put in. -/
def turned (m : List Char × Tree) (ms : List (List Char × Tree)) : List (List Char × Tree) :=
  m :: ms.reverse

theorem proper_turned {k : String} {t : Tree} {ms : List (List Char × Tree)} (ht : t.Proper)
    (h : (Tree.object ms).Proper) : (Tree.object (turned (quote k, t) ms)).Proper :=
  .cons ht (h.perm (List.reverse_perm _))

theorem varied_turned {Vs : Json.Variations} {k : String} {t : Tree}
    {ms kept : List (List Char × Tree)} (h : List.Forall₂ (Json.MemberVaried Vs) ms kept)
    (hk : Vs.lookup k = none) (ht : t.Plain 100) :
    Json.MembersVaried 100 Vs ms (turned (quote k, t) kept) := by
  refine ⟨kept, [(quote k, t)], ?_, h, ?_⟩
  · exact ((List.reverse_perm _).cons _).trans (List.perm_append_singleton _ _).symm
  · exact List.forall_mem_singleton.mpr ⟨k, Json.keyName_quote k, hk, ht⟩

/-- The cardinality in another layout. -/
def turnedCard : List (List Char × Tree) :=
  turned (quote "step", .scalar ['-', '1']) cardMembers

/-- The attribute in another layout, its cardinality as well. -/
def turnedAttribute : List (List Char × Tree) :=
  turned (quote "unit", .list [.list []]) (attributeMembers turnedCard)

/-- The class in another layout, the kind behind the other fields. -/
def turnedClass : List (List Char × Tree) :=
  turned (quote "since", .scalar ['7']) (classMembers turnedAttribute)

/-- A document in another layout. Its `kind` is no field. -/
def turnedDocument : List (List Char × Tree) :=
  turned (quote "kind", .scalar (quote "draft")) (documentMembers turnedClass)

theorem proper_turnedDocument : (Tree.object turnedDocument).Proper := by
  have hcard : (Tree.object turnedCard).Proper :=
    proper_turned (.scalar ⟨⟨'-', _, rfl, by decide⟩, rfl⟩) proper_card
  have hattribute : (Tree.object turnedAttribute).Proper :=
    proper_turned (.list (List.forall_mem_singleton.mpr (.list (List.forall_mem_nil _))))
      (proper_attribute hcard)
  have hclass : (Tree.object turnedClass).Proper :=
    proper_turned (.scalar ⟨⟨'7', [], rfl, by decide⟩, rfl⟩) (proper_class hattribute)
  exact proper_turned (Tree.proper_quote _) (proper_document hclass)

theorem varied_turnedAttribute : Attribute.shape.Varied 100
    (.object (attributeMembers cardMembers)) (.object turnedAttribute) := by
  have hcard : Cardinality.shape.Varied 100 (.object cardMembers) (.object turnedCard) := by
    have hstep : Json.PlainToken ['-', '1'] := @Json.PlainToken.negative 1 (by decide)
    exact varied_turned (.cons (Json.memberVaried_quote rfl)
      (.cons (Json.memberVaried_quote rfl) .nil)) rfl (.scalar hstep)
  have hunit : (Tree.list [.list []]).Plain 100 :=
    .list (List.forall_mem_singleton.mpr (.list (List.forall_mem_nil _)))
  exact varied_turned (.cons (Json.memberVaried_quote rfl) (.cons (Json.memberVaried_quote rfl)
    (.cons (Json.memberVaried_quote hcard) .nil))) rfl hunit

theorem varied_turnedClass : Element.shape.Varied 100
    (.object (classMembers (attributeMembers cardMembers))) (.object turnedClass) := by
  obtain ⟨l, hl, hlabel⟩ := hasTag_class
  have hsince : Json.PlainToken ['7'] := @Json.PlainToken.natural 7 (by decide)
  refine ⟨l, "class", _, hl ▸ List.mem_cons_self, hlabel, rfl,
    varied_turned ?_ rfl (.scalar hsince)⟩
  exact .cons (Json.memberVaried_quote rfl) (.cons (Json.memberVaried_quote rfl)
    (.cons (Json.memberVaried_quote rfl)
      (.cons (Json.memberVaried_quote (.cons varied_turnedAttribute .nil)) .nil)))

/-- A document with the class of the sample is read when its members are turned around and
others are put in, in the document, the class, the attribute and the cardinality. -/
theorem Document.ofText_rearranged_turnedDocument :
    let d : Document := ⟨"", "", [.ofClass sampleClass]⟩
    let source := Document.shape.compact d
    let t : Tree := .object (documentMembers (classMembers (attributeMembers cardMembers)))
    let t' : Tree := .object turnedDocument
    let source' := String.ofList t'.compact
    Document.ofText source = .ok d ∧ t.Text source ∧ Document.shape.Varied 100 t t' ∧
      t'.Text source' ∧ Document.ofText source' = .ok d := by
  intro d source t t' source'
  have hread : Document.ofText source = .ok d := Document.ofText_compact d
  have hproper : t.Proper := proper_document (proper_class (proper_attribute proper_card))
  have ht : t.Text source := hproper.text_compact (by decide +kernel)
  have ht' : t'.Text source' := proper_turnedDocument.text
  have hkind : (Tree.scalar (quote "draft")).Plain 100 := .scalar (.text (Json.keyName_quote _))
  have hvaried : Document.shape.Varied 100 t t' :=
    varied_turned (.cons (Json.memberVaried_quote rfl) (.cons (Json.memberVaried_quote rfl)
      (.cons (Json.memberVaried_quote (.cons varied_turnedClass .nil)) .nil))) rfl hkind
  exact ⟨hread, ht, hvaried, ht', (Document.ofText_rearranged hread).2 t t' _ ht hvaried ht'⟩

end Model
end ModelStubs
