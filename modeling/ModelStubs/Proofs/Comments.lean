/-
# Where a comment ends

Whoever reads a stub takes the comment to end at the first end mark in it. The comment is
written around the definition of the class and the version of the model, and both are put
in as they are. So the comment ends where it was meant to if and only if neither of the two
has an end mark of its own (`Stub.comment_isOne_iff`); blanks keep the pieces of the comment
apart, and no mark comes about where two of them meet. With an end mark in the definition
the rest of it is read as code (`Stub.comment_left_early`).

Key definitions: `Stub.behindEnd`, `Stub.HasEnd`, `Stub.IsOneComment`, `Stub.behindComment`.
Key theorems: `Stub.behindEnd_append`, `Stub.hasEnd_trim_iff`, `Stub.comment_isOne_iff`.
-/
import Mathlib.Data.List.Infix
import Mathlib.Data.List.TakeWhile
import ModelStubs.Proofs.StubTexts

namespace ModelStubs

namespace Text

/-- Trimming takes blanks off the two ends of a text. -/
theorem exists_blank_ends (s : List Char) : ∃ front back : List Char,
    s = front ++ trimmed s ++ back ∧ (∀ c ∈ front, isBlank c = true) ∧
      ∀ c ∈ back, isBlank c = true := by
  have hrest : trimmed s ++ ((dropBlank s).reverse.takeWhile isBlank).reverse = dropBlank s := by
    calc trimmed s ++ ((dropBlank s).reverse.takeWhile isBlank).reverse
        = ((dropBlank s).reverse.takeWhile isBlank ++ dropBlank (dropBlank s).reverse).reverse :=
          List.reverse_append.symm
      _ = (dropBlank s).reverse.reverse := congrArg List.reverse List.takeWhile_append_dropWhile
      _ = dropBlank s := List.reverse_reverse _
  refine ⟨s.takeWhile isBlank, ((dropBlank s).reverse.takeWhile isBlank).reverse, ?_,
    fun c hc => List.mem_takeWhile_imp hc,
    fun c hc => List.mem_takeWhile_imp (List.mem_reverse.mp hc)⟩
  rw [List.append_assoc, hrest]
  exact List.takeWhile_append_dropWhile.symm

end Text

namespace Stub

open Model (DataClass Placement)

/-! ### End marks -/

/-- What stands behind the first end mark of a comment, if a text has one. -/
def behindEnd : List Char → Option (List Char)
  | [] => none
  | c :: s => if c = '*' ∧ s.head? = some '/' then some s.tail else behindEnd s

/-- Somewhere in the text stands the mark that ends a comment. -/
def HasEnd (s : String) : Prop := ['*', '/'] <:+: s.toList

instance (s : String) : Decidable (HasEnd s) :=
  inferInstanceAs (Decidable (['*', '/'] <:+: s.toList))

/-- The text is one comment and the end of its line: it opens as comments of documentation
do, and its first end mark stands right before the end of the line. -/
structure IsOneComment (text : String) : Prop where
  opens : "/**".toList <+: text.toList
  ends : behindEnd text.toList = some ['\n']

/-- What a reader of a stub finds behind the comment. The comment starts behind the name of
the package. -/
def behindComment (p : Placement) (stub : String) : Option (List Char) :=
  behindEnd (stub.toList.drop (headText p).length)

theorem behindEnd_eq_none_iff : ∀ {s : List Char}, behindEnd s = none ↔ ¬ ['*', '/'] <:+: s
  | [] => by simp [behindEnd]
  | c :: s => by
    have hfirst : ['*', '/'] <+: c :: s ↔ c = '*' ∧ s.head? = some '/' := by
      cases s with
      | nil => simp [List.cons_prefix_cons]
      | cons d s => simp [List.cons_prefix_cons, eq_comm]
    rw [behindEnd, List.infix_cons_iff, hfirst, not_or]
    split
    · next h => simp [h]
    · next h => rw [behindEnd_eq_none_iff]; simp [h]

/-- Of two texts the first has the first end mark, unless it has none. There is no other one
if no mark comes about where the two meet. -/
theorem behindEnd_append {t : List Char} : ∀ {s : List Char},
    (s.getLast? = some '*' → t.head? ≠ some '/') →
    behindEnd (s ++ t) = ((behindEnd s).map (· ++ t)).or (behindEnd t)
  | [], _ => rfl
  | [c], h => by
    have hmeet : ¬ (c = '*' ∧ t.head? = some '/') := fun ⟨hc, ht⟩ => h (by simp [hc]) ht
    rw [List.singleton_append, behindEnd, if_neg hmeet]
    simp [behindEnd]
  | c :: d :: s, h => by
    have ih : behindEnd (d :: (s ++ t)) = ((behindEnd (d :: s)).map (· ++ t)).or (behindEnd t) :=
      behindEnd_append (s := d :: s) (by simpa using h)
    have hcons : ∀ r : List Char, behindEnd (c :: d :: r) =
        if c = '*' ∧ d = '/' then some r else behindEnd (d :: r) := by
      intro r
      rw [behindEnd]
      simp
    rw [List.cons_append, List.cons_append, hcons, hcons, ih]
    split
    · rfl
    · rfl

/-- A text without stars has no end mark. -/
theorem behindEnd_of_not_mem {s : List Char} (h : '*' ∉ s) : behindEnd s = none := by
  rw [behindEnd_eq_none_iff]
  exact fun hmark => h (hmark.subset (by simp))

/-- Blanks at the ends make no end mark and take none away. -/
theorem hasEnd_trim_iff {s : String} : HasEnd (Text.trim s) ↔ HasEnd s := by
  obtain ⟨front, back, hs, hfront, hback⟩ := Text.exists_blank_ends s.toList
  have hstar : ∀ w : List Char, (∀ c ∈ w, Text.isBlank c = true) → '*' ∉ w :=
    fun w hw hm => absurd (hw _ hm) (by decide)
  have hlast : front.getLast? ≠ some '*' :=
    fun h => hstar front hfront (List.mem_of_getLast? h)
  have hhead : back.head? ≠ some '/' :=
    fun h => absurd (hback _ (List.mem_of_head? h)) (by decide)
  have hboth : behindEnd (front ++ Text.trimmed s.toList ++ back) =
      (behindEnd (Text.trimmed s.toList)).map (· ++ back) := by
    rw [List.append_assoc, behindEnd_append fun h => absurd h hlast,
      behindEnd_append fun _ => hhead, behindEnd_of_not_mem (hstar front hfront),
      behindEnd_of_not_mem (hstar back hback)]
    simp
  have htrim : (Text.trim s).toList = Text.trimmed s.toList := String.toList_ofList
  unfold HasEnd
  rw [← not_iff_not, ← behindEnd_eq_none_iff, ← behindEnd_eq_none_iff, htrim]
  rw [← hs] at hboth
  rw [hboth, Option.map_eq_none_iff]

/-! ### The comment of a stub -/

/-- A blank between two texts makes no end mark. -/
theorem behindEnd_append_blank (s t : List Char) :
    behindEnd (s ++ ' ' :: t) = ((behindEnd s).map (· ++ ' ' :: t)).or (behindEnd t) := by
  rw [behindEnd_append fun _ => by simp]
  rfl

/-- The first end mark of a comment is that of the definition, if it has one, else that of the
version, and else the one that was put behind them. -/
theorem behindEnd_comment (definition version : String) (t : List Char) :
    behindEnd ((comment definition version).toList ++ t) =
      ((behindEnd (Text.trim definition).toList).map
          (· ++ ((" — version " ++ version ++ " */\n").toList ++ t))).or
        (((behindEnd version.toList).map (· ++ (" */\n".toList ++ t))).or (some ('\n' :: t))) := by
  have hopen : behindEnd "/**".toList = none := by decide
  have hclose : behindEnd ('*' :: '/' :: '\n' :: t) = some ('\n' :: t) := rfl
  have hversion : behindEnd (version.toList ++ ' ' :: '*' :: '/' :: '\n' :: t) =
      ((behindEnd version.toList).map (· ++ (" */\n".toList ++ t))).or (some ('\n' :: t)) := by
    rw [behindEnd_append_blank, hclose]
    rfl
  unfold comment
  by_cases hblank : (Text.trim definition).isEmpty = true
  · have hwords : behindEnd "/** version".toList = none := by decide
    have htext : ("/** version " ++ version ++ " */" ++ lineSeparator).toList ++ t =
        "/** version".toList ++ ' ' :: (version.toList ++ ' ' :: '*' :: '/' :: '\n' :: t) := by
      simp [lineSeparator]
    have hnil : (Text.trim definition).toList = [] := by simpa using hblank
    rw [if_pos hblank, htext, behindEnd_append_blank, hwords, hversion, hnil]
    rfl
  · have hwords : behindEnd "— version".toList = none := by decide
    have htext : ("/** " ++ Text.trim definition ++ " — version " ++ version ++ " */" ++
        lineSeparator).toList ++ t =
        "/**".toList ++ ' ' :: ((Text.trim definition).toList ++ ' ' :: ("— version".toList ++
          ' ' :: (version.toList ++ ' ' :: '*' :: '/' :: '\n' :: t))) := by
      simp [lineSeparator]
    rw [if_neg hblank, htext, behindEnd_append_blank, hopen, behindEnd_append_blank,
      behindEnd_append_blank "— version".toList, hwords, hversion]
    simp

/-- The end mark that was put behind a comment is the first one, with whatever text behind it,
if neither the definition nor the version has an end mark, and only then. -/
theorem behindEnd_comment_iff {definition version : String} {t : List Char} :
    behindEnd ((comment definition version).toList ++ t) = some ('\n' :: t) ↔
      ¬ HasEnd definition ∧ ¬ HasEnd version := by
  have hquiet : ∀ s : String, behindEnd s.toList = none ↔ ¬ HasEnd s :=
    fun s => behindEnd_eq_none_iff
  have htrim : HasEnd (Text.trim definition) ↔ HasEnd definition := hasEnd_trim_iff
  rw [behindEnd_comment, ← htrim, ← hquiet, ← hquiet]
  constructor
  · intro h
    cases hd : behindEnd (Text.trim definition).toList with
    | some r =>
      -- what is behind an earlier mark is longer
      rw [hd] at h
      have hlength := congrArg List.length (Option.some.inj h)
      simp at hlength
      omega
    | none =>
      cases hv : behindEnd version.toList with
      | some r =>
        rw [hd, hv] at h
        have hlength := congrArg List.length (Option.some.inj h)
        simp at hlength
        omega
      | none => exact ⟨rfl, rfl⟩
  · rintro ⟨hd, hv⟩
    rw [hd, hv]
    rfl

theorem opens_comment (definition version : String) :
    "/**".toList <+: (comment definition version).toList := by
  unfold comment
  by_cases hblank : (Text.trim definition).isEmpty = true
  · simp [hblank]
  · simp [hblank]

/-- The code of a stub is read from the comment on. -/
theorem behindComment_eq (p : Placement) (c : DataClass) (version : String) :
    behindComment p (classText p c version) =
      behindEnd ((comment c.definition version).toList ++ (bodyText c).toList) := by
  have htext : classText p c version = headText p ++ (comment c.definition version ++ bodyText c) := by
    rw [classText, text_addBody (depth_addHeader _ p c version), text_addHeader, String.append_assoc]
  rw [behindComment, htext, String.toList_append, ← String.length_toList, List.drop_left,
    String.toList_append]

/-- **A comment ends where it was meant to if nothing in it ends it.** What is made of a
definition and a version is one comment and the end of its line if and only if neither of
them has an end mark. And in the stub of a class what is read behind the comment is what
would be read there if definition and version were empty, again if and only if neither has
an end mark. -/
theorem comment_isOne_iff (definition version : String) :
    (IsOneComment (comment definition version) ↔ ¬ HasEnd definition ∧ ¬ HasEnd version) ∧
    ∀ (p : Placement) (c : DataClass),
      behindComment p (classText p (c.withDefinition definition) version) =
          behindComment p (classText p (c.withDefinition "") "") ↔
        ¬ HasEnd definition ∧ ¬ HasEnd version := by
  have hempty : ¬ HasEnd "" := by decide
  refine ⟨?_, fun p c => ?_⟩
  · have hiff : behindEnd ((comment definition version).toList ++ []) = some ['\n'] ↔
        ¬ HasEnd definition ∧ ¬ HasEnd version := behindEnd_comment_iff
    rw [List.append_nil] at hiff
    exact ⟨fun h => hiff.mp h.ends, fun h => ⟨opens_comment _ _, hiff.mpr h⟩⟩
  · have hplain : behindComment p (classText p (c.withDefinition "") "") =
        some ('\n' :: (bodyText c).toList) := by
      rw [behindComment_eq]
      exact behindEnd_comment_iff.mpr ⟨hempty, hempty⟩
    rw [hplain, behindComment_eq]
    exact behindEnd_comment_iff

/-- **A definition with an end mark is left early.** The text made of it is not one comment,
and in the stub the rest of the definition is read as code. -/
theorem comment_left_early :
    ¬ IsOneComment (comment "a */ b" "1") ∧
    behindComment (.ofNamespace "") (classText (.ofNamespace "") ⟨"Foo", "a */ b", []⟩ "1") =
      some " b — version 1 */\nclass Foo \x7b\n\x7d\n".toList := by
  refine ⟨fun h => ?_, by decide +kernel⟩
  have hends : behindEnd (comment "a */ b" "1").toList ≠ some ['\n'] := by decide +kernel
  exact hends h.ends

end Stub
end ModelStubs
