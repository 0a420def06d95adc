/-
# The text of a stub

A stub is put together in a buffer that counts how deep the next line stands. The depth
is zero outside of the body and one inside, so that every declaration is a line behind one
tab, and the whole is a plain sequence of texts: the package, the comment, the line that
opens the body, the lines of the attributes in their order, and the line that closes it
(`Stub.classText_eq`). Which line an attribute has is read off its cardinality: one that
occurs once has its type, one that occurs many times a list of its type, and any other
attribute has no line at all (`Stub.attributeText`).

Key definitions: `Stub.attributeText`, `Stub.headText`, `Stub.bodyText`.
Key theorems: `Stub.text_addHeader`, `Stub.text_addBody`, `Stub.classText_eq`.
-/
import ModelStubs.Stub.Class

namespace ModelStubs
namespace Stub

open Model (Attribute Cardinality DataClass Placement)

/-! ### Buffers -/

namespace Buffer

@[simp] theorem tabs_zero : tabs 0 = "" := rfl

@[simp] theorem tabs_one : tabs 1 = "\t" := rfl

@[simp] theorem text_empty : empty.text = "" := rfl

@[simp] theorem depth_empty : empty.depth = 0 := rfl

@[simp] theorem text_add (b : Buffer) (s : String) : (b.add s).text = b.text ++ s := rfl

@[simp] theorem depth_add (b : Buffer) (s : String) : (b.add s).depth = b.depth := rfl

@[simp] theorem text_addLine (b : Buffer) (s : String) :
    (b.addLine s).text = b.text ++ (tabs b.depth ++ s) ++ lineSeparator := rfl

@[simp] theorem depth_addLine (b : Buffer) (s : String) : (b.addLine s).depth = b.depth := rfl

@[simp] theorem text_indent (b : Buffer) : b.indent.text = b.text := rfl

@[simp] theorem depth_indent (b : Buffer) : b.indent.depth = b.depth + 1 := rfl

@[simp] theorem text_dedent (b : Buffer) : b.dedent.text = b.text := rfl

@[simp] theorem depth_dedent (b : Buffer) : b.dedent.depth = b.depth - 1 := rfl

end Buffer

/-! ### The parts of a stub -/

/-- What stands in a stub before the comment. -/
def headText (p : Placement) : String := "package " ++ p.model.name ++ "\n\n"

/-- A line of the body that declares a name with a type. -/
def memberText (type name : String) : String := "\t" ++ type ++ " " ++ name ++ "\n"

/-- The line of an attribute, or nothing. An attribute that occurs once is declared with its
type, whatever is said of it otherwise; one that counts as many is declared as a list, and
it does if that is said, or if nothing is said and it may occur more than once. -/
def attributeText (a : Attribute) : String :=
  let once := memberText (targetType a.type) a.name
  let list := memberText ("List<" ++ targetType a.type ++ ">") a.name
  if a.card.sup = some 1 then once
  else
    match a.card.many, a.card.sup with
    | some true, _ => list
    | some false, _ => ""
    | none, none => list
    | none, some n => if 1 < n then list else ""

/-- What stands in a stub behind the comment. -/
def bodyText (c : DataClass) : String :=
  "class " ++ c.name ++ " \x7b\n" ++ String.join (c.attributes.map attributeText) ++ "\x7d\n"

/-! ### The header -/

theorem text_addHeader (p : Placement) (c : DataClass) (version : String) :
    (addHeader Buffer.empty p c version).text = headText p ++ comment c.definition version := by
  simp [addHeader, headText, lineSeparator, String.append_assoc]

theorem depth_addHeader (b : Buffer) (p : Placement) (c : DataClass) (version : String) :
    (addHeader b p c version).depth = b.depth := rfl

/-! ### The body -/

/-- The line of an attribute is its declaration behind a tab, if it has one. -/
theorem attributeText_eq (a : Attribute) :
    attributeText a = ((declaration? a).map fun line => "\t" ++ line ++ "\n").getD "" := by
  have hlist : ∀ s : String, "> " ++ s = ">" ++ " " ++ s := fun _ => rfl
  unfold attributeText declaration? Cardinality.isSingle Cardinality.isMany
  by_cases hsingle : a.card.sup = some 1
  · simp [hsingle, memberText, String.append_assoc]
  · rw [if_neg hsingle, if_neg (by simpa using hsingle)]
    rcases a.card.many with _ | _ | _
    · rcases a.card.sup with _ | n
      · simp [Cardinality.exceedsOne, memberText, hlist, String.append_assoc]
      · by_cases hn : 1 < n
        · simp [Cardinality.exceedsOne, memberText, hlist, hn, String.append_assoc]
        · simp [Cardinality.exceedsOne, hn]
    · rfl
    · simp [memberText, hlist, String.append_assoc]

theorem depth_addAttribute (b : Buffer) (a : Attribute) :
    (addAttribute b a).depth = b.depth := by
  unfold addAttribute
  split
  · rfl
  · rfl

/-- Inside of a body the declaration of an attribute adds its line. -/
theorem text_addAttribute {b : Buffer} (hb : b.depth = 1) (a : Attribute) :
    (addAttribute b a).text = b.text ++ attributeText a := by
  rw [attributeText_eq]
  unfold addAttribute
  cases declaration? a with
  | none => simp
  | some line => simp [hb, lineSeparator, String.append_assoc]

/-- Inside of a body the attributes add their lines in order. -/
theorem addAttributes_eq : ∀ (as : List Attribute) {b : Buffer}, b.depth = 1 →
    as.foldl addAttribute b = ⟨b.text ++ String.join (as.map attributeText), 1⟩
  | [], b, hb => by
    rw [List.foldl_nil, List.map_nil, String.join_nil, String.append_empty, ← hb]
  | a :: as, b, hb => by
    have ih := addAttributes_eq as ((depth_addAttribute b a).trans hb)
    rw [List.foldl_cons, ih, text_addAttribute hb, List.map_cons, String.join_cons,
      String.append_assoc]

/-- The body stands behind what the buffer had. -/
theorem text_addBody {b : Buffer} (hb : b.depth = 0) (c : DataClass) :
    (addBody b c).text = b.text ++ bodyText c := by
  have hopened : (b.addLine ("class " ++ c.name ++ " \x7b")).indent.depth = 1 := by simp [hb]
  simp only [addBody, addAttributes_eq _ hopened]
  simp [bodyText, hb, lineSeparator, String.append_assoc]

/-! ### The whole -/

/-- **The text of a stub.** It names the package, has an empty line behind it, then the
comment, and then the body with the line of each attribute in the order of the class. -/
theorem classText_eq (p : Placement) (c : DataClass) (version : String) :
    classText p c version =
      "package " ++ p.model.name ++ "\n\n" ++ comment c.definition version ++
        ("class " ++ c.name ++ " \x7b\n" ++ String.join (c.attributes.map attributeText) ++
          "\x7d\n") := by
  unfold classText
  rw [text_addBody (depth_addHeader _ p c version), text_addHeader]
  rfl

/-- An attribute that can occur just once is declared with its type although it is said to
count as many; one that may occur more often is left out if it is said not to. -/
example : attributeText ⟨"legs", "int", ⟨0, some 1, some true⟩⟩ = "\tInteger legs\n" ∧
    attributeText ⟨"legs", "int", ⟨0, none, some false⟩⟩ = "" := ⟨rfl, rfl⟩

end Stub
end ModelStubs
