/-
# Names that stand twice in a model

No record of the model format, and none of the settings, is read if one of its fields stands
twice. It makes no difference where in a document the record is, how the names are spelled,
and which values they have: a later value never takes the place of an earlier one
(`Model.Stored.refuses_repeated`).

Key definitions: `Model.Stored`.
Key theorems: `Model.Stored.lawful`, `Model.Stored.refuses_repeated`.
-/
import ModelStubs.Project.Settings
import ModelStubs.Proofs.Json.Repeats
import ModelStubs.Proofs.ModelReadings

namespace ModelStubs
namespace Model

open Json (Shape Tree NamedTwice StringToken quote)

/-- The shapes that texts are read by: those of the model format, and that of the settings. -/
inductive Stored : {α : Type} → Shape α → Prop
  | document : Stored Document.shape
  | element : Stored Element.shape
  | dataClass : Stored DataClass.shape
  | enumeration : Stored Enumeration.shape
  | dataType : Stored DataType.shape
  | signature : Stored Signature.shape
  | attribute : Stored Attribute.shape
  | cardinality : Stored Cardinality.shape
  | package : Stored Package.shape
  | placement : Stored Placement.shape
  | settings : Stored Project.Settings.shape

theorem Stored.lawful {α : Type} {s : Shape α} (h : Stored s) : s.Lawful := by
  cases h <;> decide

/-- **A field that stands twice is refused**, in every record of every text: in the record
that the text is read as or in any that it holds, and in an element also the kind. -/
theorem Stored.refuses_repeated {α : Type} {s : Shape α} (h : Stored s) {t : Tree}
    {source name : String} (ht : t.Text source) {names : List String}
    {ms : List (List Char × Tree)} (hin : s.ObjectIn t names ms) (hname : name ∈ names)
    (htwice : NamedTwice name ms) : ∃ f, s.ofText source = .error f :=
  Shape.not_read_of_namedTwice h.lawful ht hin hname htwice

/-! ### A bound that stands twice -/

/-- A spelling of `inf` with an escape. -/
def escapedInf : List Char := ['"', '\\', 'u', '0', '0', '6', '9', 'n', 'f', '"']

/-- The same lower bound twice, under two spellings of its name. -/
def repeatedCard : List (List Char × Tree) :=
  [(quote "inf", .scalar ['0']), (quote "sup", .scalar ['n', 'u', 'l', 'l']),
    (escapedInf, .scalar ['0'])]

/-- A document with a class whose attribute has this cardinality. -/
def repeatedTree : Tree :=
  .object (documentMembers (classMembers (attributeMembers repeatedCard)))

/-- The text of the tree. -/
def repeatedText : String :=
  "\x7b\"namespace\":\"\",\"version\":\"\",\"elements\":[" ++
    "\x7b\"kind\":\"class\",\"name\":\"A\",\"definition\":\"\",\"attributes\":[" ++
    "\x7b\"name\":\"x\",\"type\":\"string\",\"card\":" ++
    "\x7b\"inf\":0,\"sup\":null,\"\\u0069nf\":0\x7d\x7d]\x7d]\x7d"

theorem stringToken_escapedInf : StringToken escapedInf "inf" := by
  have hdigit : ∀ n : Fin 16, Json.HexDigit (Nat.digitChar n.val) n.val :=
    fun n => ⟨n.isLt, .inl rfl⟩
  have hcode : Json.HexDigits ['0', '0', '6', '9'] 'i'.toNat :=
    .group (hdigit 0) (hdigit 0) (hdigit 6) (hdigit 9)
  have hrest : Json.SpellsChars ['n', 'f'] ['n', 'f'] :=
    .plain (by decide) (by decide) (by decide)
      (.plain (by decide) (by decide) (by decide) .nil)
  exact ⟨_, rfl, .code hcode hrest⟩

theorem text_repeatedTree : repeatedTree.Text repeatedText := by
  have hcard : (Tree.object repeatedCard).Proper := by
    refine .object ?_ ?_
    · exact List.forall_mem_cons.mpr ⟨Json.isKey_quote _, List.forall_mem_cons.mpr
        ⟨Json.isKey_quote _, List.forall_mem_singleton.mpr stringToken_escapedInf.isKey⟩⟩
    · have hzero : (Tree.scalar ['0']).Proper := .scalar ⟨⟨'0', [], rfl, by decide⟩, rfl⟩
      have hnull : (Tree.scalar ['n', 'u', 'l', 'l']).Proper :=
        .scalar ⟨⟨'n', _, rfl, by decide⟩, rfl⟩
      exact List.forall_mem_cons.mpr ⟨hzero, List.forall_mem_cons.mpr
        ⟨hnull, List.forall_mem_singleton.mpr hzero⟩⟩
  have hcompact : String.ofList repeatedTree.compact = repeatedText := by decide +kernel
  exact hcompact ▸ (proper_document (proper_class (proper_attribute hcard))).text

/-- The cardinality is read in the attribute, the class and the document around it. -/
theorem objectIn_repeatedTree :
    Document.shape.ObjectIn repeatedTree ["inf", "sup", "many"] repeatedCard := by
  have hcard : Cardinality.shape.ObjectIn (.object repeatedCard) ["inf", "sup", "many"]
      repeatedCard := .inl ⟨rfl, rfl⟩
  have hattribute : Attribute.shape.ObjectIn (.object (attributeMembers repeatedCard))
      ["inf", "sup", "many"] repeatedCard :=
    .inr (.inl ⟨_, rfl, .inr (.inr (.inl ⟨quote "card", _, by simp [attributeMembers],
      Json.stringToken_quote _, hcard⟩))⟩)
  have hclass : Element.shape.ObjectIn
      (.object (classMembers (attributeMembers repeatedCard))) ["inf", "sup", "many"]
      repeatedCard := by
    refine .inr (.inl ⟨_, rfl, .inl ⟨fun l hl label _ hlabel => ?_, .inr (.inl ⟨_, rfl, ?_⟩)⟩⟩)
    · obtain ⟨l', hl', hkind⟩ : Json.HasTag "kind" "class"
        (classMembers (attributeMembers repeatedCard)) := hasTag_class
      rw [hl', List.mem_singleton] at hl
      exact hlabel.unique (hl ▸ hkind)
    · exact .inr (.inr (.inl ⟨quote "attributes", _, by simp [classMembers],
        Json.stringToken_quote _, _, _, rfl, List.mem_singleton_self _, hattribute⟩))
  exact .inr (.inl ⟨_, rfl, .inr (.inr (.inl ⟨quote "elements", _, by simp [documentMembers],
    Json.stringToken_quote _, _, _, rfl, List.mem_singleton_self _, hclass⟩))⟩)

/-- The same bound twice is refused deep in a document, although one name is escaped. -/
theorem Stored.refuses_repeated_inf : repeatedTree.Text repeatedText ∧
    Document.shape.ObjectIn repeatedTree ["inf", "sup", "many"] repeatedCard ∧
    NamedTwice "inf" repeatedCard ∧ ∃ f, Document.ofText repeatedText = .error f := by
  have htwice : NamedTwice "inf" repeatedCard := by
    refine ⟨(quote "inf", .scalar ['0']), (escapedInf, .scalar ['0']), ?_,
      Json.stringToken_quote _, stringToken_escapedInf⟩
    exact .cons_cons _ (.cons _ (.cons_cons _ .slnil))
  exact ⟨text_repeatedTree, objectIn_repeatedTree, htwice,
    Stored.document.refuses_repeated text_repeatedTree objectIn_repeatedTree
      List.mem_cons_self htwice⟩

end Model
end ModelStubs
