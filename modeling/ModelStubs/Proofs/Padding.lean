/-
# Blanks around a definition

A definition is trimmed before it is put into a comment, so blanks at its ends make no
difference, to the comment (`Stub.comment_padded`) or to the stubs that hold it. Trimming works
from both ends, and on a text of blanks alone the two meet: nothing is left, and the comment has
its short form. Of any other text something is left, and it starts and ends with a character
that is no blank; that much of the definition, and the whole version, stands in the comment as
it is (`Stub.comment_unpadded`).

Key definitions: `Text.AllBlank`, `Text.Bare`.
Key theorems: `Text.trimmed_padded`, `Text.trimmed_eq_nil_iff`, `Text.bare_trim`,
`Stub.comment_eq_short_iff`, `Stub.comment_unpadded`.
-/
import Mathlib.Data.List.DropRight
import ModelStubs.Proofs.Comments

namespace ModelStubs

namespace Text

/-- The text is made of blanks only. -/
def AllBlank (s : String) : Prop := ∀ c ∈ s.toList, isBlank c = true

instance (s : String) : Decidable (AllBlank s) :=
  decidable_of_iff (s.toList.all isBlank = true) List.all_eq_true

/-- The text has a first and a last character, and neither is a blank. -/
structure Bare (s : String) : Prop where
  first : ∃ c, s.toList.head? = some c ∧ isBlank c = false
  last : ∃ c, s.toList.getLast? = some c ∧ isBlank c = false

/-! ### Trimming -/

theorem dropBlank_eq_nil_iff {s : List Char} : dropBlank s = [] ↔ ∀ c ∈ s, isBlank c = true :=
  List.dropWhile_eq_nil_iff

/-- What is left by the front starts with no blank. -/
theorem head_dropBlank {s : List Char} (h : dropBlank s ≠ []) :
    isBlank ((dropBlank s).head h) = false :=
  List.head_dropWhile_not isBlank h

/-- What trimming leaves is what it leaves of the text without the blanks in front. -/
theorem trimmed_eq (s : List Char) : trimmed s = (dropBlank s).rdropWhile isBlank := rfl

/-- Blanks behind a text are dropped from the back, and if nothing but blanks stands before
them, from the front. -/
theorem trimmed_append_of_blank (s : List Char) {w : List Char}
    (hw : ∀ c ∈ w, isBlank c = true) : trimmed (s ++ w) = trimmed s := by
  by_cases hs : dropBlank s = []
  · have hall : dropBlank (s ++ w) = [] := by
      rw [dropBlank_append_of_blank s w (dropBlank_eq_nil_iff.mp hs)]
      exact dropBlank_eq_nil_iff.mpr hw
    rw [trimmed, trimmed, hall, hs]
  · have hfront : dropBlank (s ++ w) = dropBlank s ++ w := by
      unfold dropBlank at hs ⊢
      rw [List.dropWhile_append, if_neg (by simpa using hs)]
    have hback : ∀ c ∈ w.reverse, isBlank c = true := fun c hc => hw c (List.mem_reverse.mp hc)
    rw [trimmed, hfront, List.reverse_append, dropBlank_append_of_blank _ _ hback, trimmed]

/-- Blanks at the two ends make no difference. -/
theorem trimmed_padded (s : List Char) {v w : List Char} (hv : ∀ c ∈ v, isBlank c = true)
    (hw : ∀ c ∈ w, isBlank c = true) : trimmed (v ++ s ++ w) = trimmed s := by
  calc trimmed (v ++ s ++ w) = trimmed (v ++ s) := trimmed_append_of_blank _ hw
    _ = trimmed s := by rw [trimmed, dropBlank_append_of_blank v s hv, trimmed]

/-- Nothing is left exactly of blanks. -/
theorem trimmed_eq_nil_iff {s : List Char} : trimmed s = [] ↔ ∀ c ∈ s, isBlank c = true := by
  rw [trimmed_eq, List.rdropWhile_eq_nil_iff, ← dropBlank_eq_nil_iff (s := s)]
  constructor
  · intro h
    -- what the front leaves would start with a blank
    by_contra hne
    have hblank := h _ (List.head_mem hne)
    rw [head_dropBlank hne] at hblank
    cases hblank
  · intro h
    simp [h]

theorem trim_padded (s : String) {v w : String} (hv : AllBlank v) (hw : AllBlank w) :
    trim (v ++ s ++ w) = trim s := by
  rw [trim, trim, String.toList_append, String.toList_append, trimmed_padded s.toList hv hw]

theorem trim_isEmpty_iff {s : String} : (trim s).isEmpty = true ↔ AllBlank s := by
  rw [String.isEmpty_iff, trim, ← String.toList_inj, String.toList_ofList]
  exact trimmed_eq_nil_iff

/-- What is left starts and ends with characters that are no blanks. -/
theorem bare_trim {s : String} (h : ¬ AllBlank s) : Bare (trim s) := by
  have hleft : trimmed s.toList ≠ [] := fun hnil => h (trimmed_eq_nil_iff.mp hnil)
  have hfront : dropBlank s.toList ≠ [] := fun hnil => h (dropBlank_eq_nil_iff.mp hnil)
  have htrim : (trim s).toList = trimmed s.toList := String.toList_ofList
  constructor
  · -- the back leaves a beginning of what the front leaves
    obtain ⟨rest, hrest⟩ : trimmed s.toList <+: dropBlank s.toList :=
      List.rdropWhile_prefix isBlank _
    have hhead : (trimmed s.toList).head hleft = (dropBlank s.toList).head hfront := by
      simp [← hrest, List.head_append_of_ne_nil hleft]
    refine ⟨(dropBlank s.toList).head hfront, ?_, head_dropBlank hfront⟩
    rw [htrim, List.head?_eq_some_head hleft, hhead]
  · refine ⟨(trimmed s.toList).getLast hleft, ?_, ?_⟩
    · rw [htrim, List.getLast?_eq_some_getLast hleft]
    · exact Bool.eq_false_iff.mpr (List.rdropWhile_last_not isBlank (dropBlank s.toList) hleft)

end Text

namespace Stub

open Model (DataClass Element Placement)
open Text (AllBlank Bare)

/-! ### The two forms of a comment -/

theorem comment_of_allBlank {definition : String} (h : AllBlank definition) (version : String) :
    comment definition version = "/** version " ++ version ++ " */\n" := by
  unfold comment
  rw [if_pos (Text.trim_isEmpty_iff.mpr h)]
  simp [lineSeparator, String.append_assoc]

theorem comment_of_not_allBlank {definition : String} (h : ¬ AllBlank definition)
    (version : String) : comment definition version =
      "/** " ++ Text.trim definition ++ " — version " ++ version ++ " */\n" := by
  unfold comment
  rw [if_neg fun he => h (Text.trim_isEmpty_iff.mp he)]
  simp [lineSeparator, String.append_assoc]

/-- The short form is that of blanks only: any other comment is longer. -/
theorem comment_eq_short_iff {definition version : String} :
    comment definition version = "/** version " ++ version ++ " */\n" ↔ AllBlank definition := by
  constructor
  · intro h
    by_contra hseen
    rw [comment_of_not_allBlank hseen] at h
    have hlength := congrArg String.length h
    have hopen : "/** ".length = 4 := rfl
    have hwords : " — version ".length = 11 := rfl
    have hshort : "/** version ".length = 12 := rfl
    have hleft : 0 < (Text.trim definition).length := by
      obtain ⟨c, hc, -⟩ := (Text.bare_trim hseen).first
      rw [← String.length_toList]
      exact List.length_pos_of_mem (List.mem_of_head? hc)
    simp only [String.length_append, hopen, hwords, hshort] at hlength
    omega
  · exact fun h => comment_of_allBlank h version

theorem comment_padded (definition version : String) {v w : String} (hv : AllBlank v)
    (hw : AllBlank w) : comment (v ++ definition ++ w) version = comment definition version := by
  unfold comment
  rw [Text.trim_padded definition hv hw]

/-! ### Stubs -/

/-- A stub depends on the definition through the comment only. -/
theorem classText_congr {c : DataClass} {d e version : String}
    (h : comment d version = comment e version) (p : Placement) :
    classText p (c.withDefinition d) version = classText p (c.withDefinition e) version := by
  rw [classText_eq, classText_eq]
  simp only [DataClass.withDefinition]
  rw [h]

/-- The stubs of a model depend on the definition of a class through its comment only. -/
theorem stubs_congr_definition {c : DataClass} {d e version : String}
    (h : comment d version = comment e version) (p : Placement) (before after : List Element) :
    stubs p (before ++ .ofClass (c.withDefinition d) :: after) version =
      stubs p (before ++ .ofClass (c.withDefinition e) :: after) version := by
  have htext := classText_congr (c := c) h p
  unfold stubs
  simp only [List.filterMap_append, List.filterMap_cons, Element.class?, List.map_append,
    List.map_cons, htext]
  rfl

/-- **Padding of a definition never shows.** Blanks around a definition change neither the
comment nor a stub; the comment has its short form exactly for a definition of blanks only; and
for any other definition it holds, as they are, the definition from its first character to its
last that is no blank, and the version. -/
theorem comment_unpadded (definition version : String) :
    (∀ v w : String, AllBlank v → AllBlank w →
      comment (v ++ definition ++ w) version = comment definition version ∧
      ∀ (p : Placement) (c : DataClass),
        classText p (c.withDefinition (v ++ definition ++ w)) version =
          classText p (c.withDefinition definition) version ∧
        ∀ before after : List Element,
          stubs p (before ++ .ofClass (c.withDefinition (v ++ definition ++ w)) :: after) version =
            stubs p (before ++ .ofClass (c.withDefinition definition) :: after) version) ∧
    (comment definition version = "/** version " ++ version ++ " */\n" ↔ AllBlank definition) ∧
    (¬ AllBlank definition → ∃ front seen back : String, definition = front ++ seen ++ back ∧
      AllBlank front ∧ AllBlank back ∧ Bare seen ∧
      comment definition version = "/** " ++ seen ++ " — version " ++ version ++ " */\n") := by
  refine ⟨fun v w hv hw => ?_, comment_eq_short_iff, fun hseen => ?_⟩
  · have hcomment := comment_padded definition version hv hw
    exact ⟨hcomment, fun p c =>
      ⟨classText_congr hcomment p, stubs_congr_definition hcomment p⟩⟩
  · obtain ⟨front, back, hd, hfront, hback⟩ := Text.exists_blank_ends definition.toList
    refine ⟨String.ofList front, Text.trim definition, String.ofList back, ?_, ?_, ?_,
      Text.bare_trim hseen, comment_of_not_allBlank hseen version⟩
    · rw [← String.toList_inj]
      simpa [Text.trim] using hd
    · simpa [AllBlank] using hfront
    · simpa [AllBlank] using hback

/-- A definition whose first and last characters are written in several bytes, with blanks beyond
ASCII around it. -/
theorem comment_unpadded_accented :
    AllBlank "\u2003\t" ∧ AllBlank "\u3000\n" ∧ ¬ AllBlank "é  漢" ∧
    comment ("\u2003\t" ++ "é  漢" ++ "\u3000\n") " 1 " = comment "é  漢" " 1 " ∧
    classText (.ofNamespace "") ⟨"Foo", "\u2003\t" ++ "é  漢" ++ "\u3000\n", []⟩ " 1 " =
      classText (.ofNamespace "") ⟨"Foo", "é  漢", []⟩ " 1 " ∧
    (comment "é  漢" " 1 " = "/** version " ++ " 1 " ++ " */\n" ↔ AllBlank "é  漢") ∧
    ∃ front seen back : String, "é  漢" = front ++ seen ++ back ∧ AllBlank front ∧
      AllBlank back ∧ Bare seen ∧
      comment "é  漢" " 1 " = "/** " ++ seen ++ " — version " ++ " 1 " ++ " */\n" := by
  obtain ⟨hpadded, hshort, hlong⟩ := comment_unpadded "é  漢" " 1 "
  have hbefore : AllBlank "\u2003\t" := by decide
  have hafter : AllBlank "\u3000\n" := by decide
  have hseen : ¬ AllBlank "é  漢" := by decide
  obtain ⟨hcomment, hstubs⟩ := hpadded _ _ hbefore hafter
  exact ⟨hbefore, hafter, hseen, hcomment, (hstubs (.ofNamespace "") (.named "Foo")).1, hshort,
    hlong hseen⟩

/-- Blanks inside stay, as do those of the version. -/
example : comment "\u2003\té  漢\u3000\n" " 1 " = "/** é  漢 — version  1  */\n" := by decide

end Stub
end ModelStubs
