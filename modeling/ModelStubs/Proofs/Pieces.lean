/-
# Texts in pieces

Cutting a text at a separator (`Text.pieces`) is the splitting of lists that the library
has. A separator cuts a text into two that are cut on their own, and any other text that
is put behind only makes the last piece longer. Of pieces that are joined again, the
last one ends the text.

Key theorems: `Text.pieces_eq_splitOn`, `Text.pieces_append_sep`, `Text.exists_last_piece`,
`Text.joined_append`, `Text.splitOnP_joined`, `Text.getLast?_joined`.
-/
import Mathlib.Data.List.Basic
import ModelStubs.Text.Pieces

namespace ModelStubs
namespace Text

/-! ### Cutting -/

theorem pieces_cons_sep (sep : Char) (s : List Char) :
    pieces sep (sep :: s) = [] :: pieces sep s := by
  rw [pieces, if_pos rfl]

/-- Another character belongs to the first piece. -/
theorem pieces_cons_ne {sep c : Char} {s p : List Char} {ps : List (List Char)} (hc : c ≠ sep)
    (h : pieces sep s = p :: ps) : pieces sep (c :: s) = (c :: p) :: ps := by
  rw [pieces, if_neg hc, h]

/-- The pieces are the parts into which a list is split. -/
theorem pieces_eq_splitOn (sep : Char) : ∀ s, pieces sep s = s.splitOn sep
  | [] => (List.splitOn_nil sep).symm
  | c :: s => by
    have ih := pieces_eq_splitOn sep s
    rw [List.splitOn_eq_splitOnP] at ih ⊢
    rw [List.splitOnP_cons_eq_if_modifyHead, ← ih]
    by_cases hc : c = sep
    · rw [hc, pieces_cons_sep, if_pos (beq_self_eq_true sep)]
    · obtain ⟨p, ps, hp⟩ := List.exists_cons_of_ne_nil (pieces_ne_nil sep s)
      rw [pieces_cons_ne hc hp, if_neg (by simpa using hc), hp, List.modifyHead_cons]

/-- A separator cuts the text into two that are cut on their own. -/
theorem pieces_append_sep (sep : Char) : ∀ s t : List Char,
    pieces sep (s ++ sep :: t) = pieces sep s ++ pieces sep t
  | [], t => pieces_cons_sep sep t
  | c :: s, t => by
    have ih := pieces_append_sep sep s t
    by_cases hc : c = sep
    · rw [hc, List.cons_append, pieces_cons_sep, pieces_cons_sep, ih]
      rfl
    · obtain ⟨p, ps, hp⟩ := List.exists_cons_of_ne_nil (pieces_ne_nil sep s)
      rw [hp] at ih
      rw [List.cons_append, pieces_cons_ne hc hp, pieces_cons_ne hc ih]
      rfl

/-- A text without the separator makes the last piece longer and leaves the others. -/
theorem exists_last_piece (sep : Char) {t : List Char} (h : sep ∉ t) : ∀ s : List Char,
    ∃ ps p, pieces sep s = ps ++ [p] ∧ pieces sep (s ++ t) = ps ++ [p ++ t]
  | [] => ⟨[], [], rfl, pieces_of_not_mem sep t h⟩
  | c :: s => by
    obtain ⟨ps, p, hs, ht⟩ := exists_last_piece sep h s
    by_cases hc : c = sep
    · refine ⟨[] :: ps, p, ?_, ?_⟩
      · rw [hc, pieces_cons_sep, hs, List.cons_append]
      · rw [hc, List.cons_append, pieces_cons_sep, ht, List.cons_append]
    · cases ps with
      | nil => exact ⟨[], c :: p, pieces_cons_ne hc hs, pieces_cons_ne hc ht⟩
      | cons q qs => exact ⟨(c :: q) :: qs, p, pieces_cons_ne hc hs, pieces_cons_ne hc ht⟩

/-! ### Joining -/

theorem joined_append (sep : Char) : ∀ {ps qs : List (List Char)}, ps ≠ [] → qs ≠ [] →
    joined sep (ps ++ qs) = joined sep ps ++ sep :: joined sep qs
  | [], _, h, _ => absurd rfl h
  | [p], [], _, h => absurd rfl h
  | [p], q :: qs, _, _ => rfl
  | p :: r :: rs, qs, _, h => by
    have ih : joined sep (r :: rs ++ qs) = joined sep (r :: rs) ++ sep :: joined sep qs :=
      joined_append sep (by simp) h
    rw [List.cons_append] at ih
    rw [List.cons_append, List.cons_append, joined, ih, joined, List.append_assoc,
      List.cons_append]

/-- A piece is a part of the joined text. -/
theorem infix_joined (sep : Char) : ∀ {ps : List (List Char)} {p : List Char}, p ∈ ps →
    p <:+: joined sep ps
  | [q], p, h => by
    rw [List.mem_singleton.mp h]
    exact List.infix_rfl
  | q :: r :: rs, p, h => by
    rw [joined]
    rcases List.mem_cons.mp h with rfl | h
    · exact (List.prefix_append p _).isInfix
    · exact (infix_joined sep h).trans ((List.suffix_cons sep _).trans (List.suffix_append q _)).isInfix

/-- Joined pieces are split again by any test that holds of the separator and of nothing in
them. -/
theorem splitOnP_joined (sep : Char) (test : Char → Bool) (hsep : test sep = true) :
    ∀ {ps : List (List Char)}, ps ≠ [] → (∀ p ∈ ps, ∀ c ∈ p, test c = false) →
    (joined sep ps).splitOnP test = ps
  | [], h, _ => absurd rfl h
  | [p], _, h => List.splitOnP_eq_singleton (h p (by simp))
  | p :: q :: ps, _, h => by
    have ih : (joined sep (q :: ps)).splitOnP test = q :: ps :=
      splitOnP_joined sep test hsep (by simp) fun r hr => h r (List.mem_cons_of_mem _ hr)
    rw [joined, List.splitOnP_append_cons _ _ hsep, List.splitOnP_eq_singleton (h p (by simp)), ih,
      List.singleton_append]

/-- The last piece ends the text. -/
theorem getLast?_joined (sep : Char) {p : List Char} (hp : p ≠ []) : ∀ {ps : List (List Char)},
    ps.getLast? = some p → (joined sep ps).getLast? = p.getLast?
  | [], h => by cases h
  | [q], h => by cases h; rfl
  | q :: r :: rs, h => by
    have ih : (joined sep (r :: rs)).getLast? = p.getLast? := getLast?_joined sep hp h
    rw [joined, List.getLast?_append, List.getLast?_cons, ih]
    cases hl : p.getLast? with
    | none => exact absurd (List.getLast?_eq_none_iff.mp hl) hp
    | some c => rfl

end Text
end ModelStubs
