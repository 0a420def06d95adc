/-
# Cutting a text at a separator

`pieces sep s` are the runs of `s` between the occurrences of `sep`, in order:
one more than there are separators, the empty ones included. Putting the
separator back between them gives the text again.

Key definitions: `Text.pieces`, `Text.joined`.
Key theorems: `Text.joined_pieces`, `Text.not_mem_of_mem_pieces`, `Text.pieces_append_cons`.
-/
namespace ModelStubs
namespace Text

/-- The runs of characters between the separators. -/
def pieces (sep : Char) : List Char → List (List Char)
  | [] => [[]]
  | c :: s =>
    if c = sep then [] :: pieces sep s
    else
      match pieces sep s with
      | [] => [[c]]
      | p :: ps => (c :: p) :: ps

/-- The pieces with the separator between each two. -/
def joined (sep : Char) : List (List Char) → List Char
  | [] => []
  | [p] => p
  | p :: q :: ps => p ++ sep :: joined sep (q :: ps)

theorem pieces_ne_nil (sep : Char) : ∀ s, pieces sep s ≠ []
  | [] => by simp [pieces]
  | c :: s => by
    unfold pieces
    split
    · simp
    · split <;> simp

/-- Cutting loses nothing. -/
theorem joined_pieces (sep : Char) : ∀ s, joined sep (pieces sep s) = s
  | [] => rfl
  | c :: s => by
    have ih := joined_pieces sep s
    unfold pieces
    split
    · next h =>
      subst h
      revert ih
      generalize hp : pieces c s = ps
      cases ps with
      | nil => exact absurd hp (pieces_ne_nil c s)
      | cons p ps => intro ih; simp [joined, ih]
    · split
      · next hp => exact absurd hp (pieces_ne_nil sep s)
      · next p ps hp =>
        rw [hp] at ih
        cases ps with
        | nil => simp only [joined] at ih ⊢; rw [ih]
        | cons q ps => simp only [joined, List.cons_append] at ih ⊢; rw [ih]

/-- No piece holds the separator. -/
theorem not_mem_of_mem_pieces (sep : Char) : ∀ s, ∀ p ∈ pieces sep s, sep ∉ p
  | [], p, hp => by simp_all [pieces]
  | c :: s, p, hp => by
    have ih := not_mem_of_mem_pieces sep s
    unfold pieces at hp
    split at hp
    · rcases List.mem_cons.mp hp with rfl | hp
      · simp
      · exact ih p hp
    · next hc =>
      split at hp
      · next h => exact absurd h (pieces_ne_nil sep s)
      · next q qs h =>
        rcases List.mem_cons.mp hp with rfl | hp
        · simp only [List.mem_cons, not_or]
          exact ⟨fun e => hc e.symm, ih q (by simp [h])⟩
        · exact ih p (by simp [h, hp])

/-- A text without the separator is one piece. -/
theorem pieces_of_not_mem (sep : Char) : ∀ s, sep ∉ s → pieces sep s = [s]
  | [], _ => rfl
  | c :: s, h => by
    simp only [List.mem_cons, not_or] at h
    have hc : ¬ c = sep := fun e => h.1 e.symm
    simp [pieces, hc, pieces_of_not_mem sep s h.2]

/-- A piece ends at the first separator. -/
theorem pieces_append_cons (sep : Char) : ∀ p s, sep ∉ p →
    pieces sep (p ++ sep :: s) = p :: pieces sep s
  | [], s, _ => by simp [pieces]
  | c :: p, s, h => by
    simp only [List.mem_cons, not_or] at h
    have hc : ¬ c = sep := fun e => h.1 e.symm
    simp [pieces, hc, pieces_append_cons sep p s h.2]

/-- Pieces without the separator come back when they were joined. -/
theorem pieces_joined (sep : Char) : ∀ ps, ps ≠ [] → (∀ p ∈ ps, sep ∉ p) →
    pieces sep (joined sep ps) = ps
  | [], h, _ => absurd rfl h
  | [p], _, h => pieces_of_not_mem sep p (h p (by simp))
  | p :: q :: ps, _, h => by
    rw [joined, pieces_append_cons sep p _ (h p (by simp)),
      pieces_joined sep (q :: ps) (by simp) fun r hr => h r (by simp [hr])]

end Text
end ModelStubs
