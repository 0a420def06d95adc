/-
# The paths above a path

The directories above a file are made from the top down, along the list of its
ancestors. Each of them is the next one and one name more (`Disk.Above`): its text starts
with that of the next, and between the two names there are points at most, which stand
for nothing. The list ends in the empty path or in the top (`Disk.Climbs`).

Key definitions: `Disk.Above`, `Disk.Climbs`.
Key theorems: `Disk.Climbs.extends`, `Disk.climbs_ancestors_join`.
-/
import Mathlib.Data.List.DropRight
import ModelStubs.Proofs.Places

namespace ModelStubs
namespace Disk

open FileTree (Route partNames)
open Output (PlainParts pathOf Plain)

/-- The path `q` is the next one above `p`, which has one name more. -/
structure Above (q p : Path) : Prop where
  text : ∃ s, p.text = q.text ++ s
  names : ∃ dots n, (Route.of p.text).names = (Route.of q.text).names ++ (dots ++ [n]) ∧
    ∀ d ∈ dots, d = "."

/-- Each path stands below the next, and the last is empty or has no name. -/
inductive Climbs : List Path → Prop
  | top {p : Path} : p.text = "" ∨ (Route.of p.text).names = [] → Climbs [p]
  | step {p q : Path} {ps : List Path} : Above q p → Climbs (q :: ps) → Climbs (p :: q :: ps)

/-- The path `p` starts with the path `q`. -/
structure Extends (p q : Path) : Prop where
  text : ∃ s, p.text = q.text ++ s
  names : ∃ ns, ns ≠ [] ∧ (Route.of p.text).names = (Route.of q.text).names ++ ns

theorem Above.extends {p q : Path} (h : Above q p) : Extends p q := by
  obtain ⟨dots, n, hnames, -⟩ := h.names
  exact ⟨h.text, dots ++ [n], by simp, hnames⟩

theorem Extends.trans {p q r : Path} (h : Extends p q) (h' : Extends q r) : Extends p r := by
  obtain ⟨s, hs⟩ := h.text
  obtain ⟨s', hs'⟩ := h'.text
  obtain ⟨ns, -, hns⟩ := h.names
  obtain ⟨ms, hne, hms⟩ := h'.names
  refine ⟨⟨s' ++ s, by rw [hs, hs', String.append_assoc]⟩, ms ++ ns, by simp [hne], ?_⟩
  rw [hns, hms, List.append_assoc]

/-- A path starts with every path that comes behind it. -/
theorem Climbs.extends {ps : List Path} : ∀ {p : Path}, Climbs (p :: ps) →
    ∀ q ∈ ps, Extends p q := by
  induction ps with
  | nil => exact fun _ q hq => (by cases hq)
  | cons r ps ih =>
    intro p h q hq
    cases h with
    | step habove hrest =>
      rcases List.mem_cons.mp hq with rfl | hq
      · exact habove.extends
      · exact habove.extends.trans (ih hrest q hq)

/-! ### The texts and names of parts -/

/-- The lead of a path: it starts at the top, in the directory `.`, or with a name. -/
def IsLead (lead : List (List Char)) : Prop := lead = [] ∨ lead = [[]] ∨ lead = [['.']]

theorem isLead_lead (p : Path) : IsLead p.lead.1 := by
  unfold Path.lead
  split
  · exact .inl rfl
  · split
    · exact .inr (.inl rfl)
    · split
      · next hdot => exact .inr (.inr (by rw [hdot]))
      · exact .inl rfl

/-- Unless it is the top, a path of parts is its parts with slashes between them. -/
theorem ofParts_eq {lead parts : List (List Char)} (h : ¬ (lead = [[]] ∧ parts = [])) :
    Path.ofParts lead parts = ⟨String.ofList (Text.joined '/' (lead ++ parts))⟩ := by
  unfold Path.ofParts
  split
  · exact absurd ⟨rfl, rfl⟩ h
  · rfl

/-- The text of a path starts with that of a path of its first parts. -/
theorem ofParts_append (lead qs rs : List (List Char)) :
    ∃ s, (Path.ofParts lead (qs ++ rs)).text = (Path.ofParts lead qs).text ++ s := by
  by_cases hr : rs = []
  · exact ⟨"", by rw [hr, List.append_nil, String.append_empty]⟩
  · rw [ofParts_eq (by simp [hr]), ← List.append_assoc]
    by_cases htop : lead = [[]] ∧ qs = []
    · obtain ⟨rfl, rfl⟩ := htop
      refine ⟨String.ofList (Text.joined '/' rs), ?_⟩
      rw [List.append_nil, Text.joined_append '/' (by simp) hr]
      exact @String.ofList_append ['/'] _
    · rw [ofParts_eq htop]
      by_cases hl : lead ++ qs = []
      · exact ⟨_, by rw [hl]; exact String.empty_append.symm⟩
      · exact ⟨String.ofList ('/' :: Text.joined '/' rs), by
          rw [Text.joined_append '/' hl hr, String.ofList_append]⟩

/-- The names of a path of parts are those parts that are not empty. -/
theorem names_ofParts {lead parts : List (List Char)} (h : ∀ p ∈ lead ++ parts, '/' ∉ p) :
    (Route.of (Path.ofParts lead parts).text).names =
      partNames ((lead ++ parts).filter fun p => !p.isEmpty) := by
  by_cases htop : lead = [[]] ∧ parts = []
  · obtain ⟨rfl, rfl⟩ := htop
    decide
  · rw [ofParts_eq htop]
    by_cases hnil : lead ++ parts = []
    · rw [hnil]
      decide
    · rw [Route.names_of, String.toList_ofList, Text.pieces_joined '/' _ hnil h]

/-- Every path is made of its lead and the parts behind it. -/
theorem ofParts_lead (p : Path) : Path.ofParts p.lead.1 p.lead.2 = p := by
  have htext : ∀ q qs, p.pieces = q :: qs → String.ofList (Text.joined '/' (q :: qs)) = p.text := by
    intro q qs hp
    rw [← hp, Path.pieces, Text.joined_pieces, String.ofList_toList]
  unfold Path.lead
  split
  · next hp => exact absurd hp (Text.pieces_ne_nil '/' _)
  · next q qs hp =>
    split
    · next habs =>
      obtain ⟨ps, hps, hne⟩ := pieces_of_isAbsolute habs
      rw [hp] at hps
      cases hps
      rw [ofParts_eq (by simp [hne])]
      exact congrArg Path.mk (htext _ _ hp)
    · split
      · next hdot =>
        rw [ofParts_eq (by simp [hdot])]
        exact congrArg Path.mk (htext _ _ hp)
      · rw [ofParts_eq (by simp)]
        exact congrArg Path.mk (htext _ _ hp)

theorem not_mem_lead {p : Path} : ∀ q ∈ p.lead.1 ++ p.lead.2, '/' ∉ q := by
  have hpieces : ∀ q ∈ p.pieces, '/' ∉ q := Text.not_mem_of_mem_pieces '/' _
  unfold Path.lead
  split
  · simp
  · next r rs hp =>
    rw [hp] at hpieces
    split
    · intro q hq
      rcases List.mem_cons.mp hq with rfl | hq
      · simp
      · exact hpieces q (List.mem_cons_of_mem _ hq)
    · split
      · exact hpieces
      · exact hpieces

/-! ### Parts without fillers at their end -/

/-- There is no filler behind the last component. -/
def Trimmed (ps : List (List Char)) : Prop := trimmedPieces ps = ps

theorem trimmed_trimmedPieces (ps : List (List Char)) : Trimmed (trimmedPieces ps) := by
  unfold Trimmed trimmedPieces
  rw [List.reverse_reverse, List.dropWhile_idempotent]

theorem trimmed_append_singleton (ps : List (List Char)) {q : List Char}
    (hq : isFiller q = false) : Trimmed (ps ++ [q]) := by
  simp [Trimmed, trimmedPieces, hq]

/-- Parts that end in a component are the parts above it, fillers, and the component. -/
theorem split_of_parentPieces {ps qs : List (List Char)} (ht : Trimmed ps)
    (h : parentPieces ps = some qs) : Trimmed qs ∧ ∃ fillers q, ps = qs ++ (fillers ++ [q]) ∧
      (∀ f ∈ fillers, isFiller f = true) ∧ isFiller q = false := by
  have hdrop : ps.reverse.dropWhile isFiller = ps.reverse := by
    rw [← List.reverse_inj, List.reverse_reverse]
    exact ht
  unfold parentPieces at h
  rw [hdrop] at h
  split at h
  · cases h
  · next q rs hrev =>
    cases h
    have hps : ps = rs.reverse ++ [q] := by
      rw [← List.reverse_reverse ps, hrev, List.reverse_cons]
    have hq : isFiller q = false := by
      have hhead := List.head?_dropWhile_not isFiller ps.reverse
      rw [hdrop, hrev] at hhead
      simpa using hhead
    refine ⟨trimmed_trimmedPieces _, (rs.takeWhile isFiller).reverse, q, ?_, ?_, hq⟩
    · have hrs : rs.reverse = trimmedPieces rs.reverse ++ (rs.takeWhile isFiller).reverse := by
        rw [trimmedPieces, List.reverse_reverse, ← List.reverse_append,
          List.takeWhile_append_dropWhile]
      rw [← List.append_assoc, ← hrs]
      exact hps
    · intro f hf
      exact List.mem_takeWhile_imp (List.mem_reverse.mp hf)

theorem eq_nil_of_parentPieces {ps : List (List Char)} (ht : Trimmed ps)
    (h : parentPieces ps = none) : ps = [] := by
  have hdrop : ps.reverse.dropWhile isFiller = ps.reverse := by
    rw [← List.reverse_inj, List.reverse_reverse]
    exact ht
  unfold parentPieces at h
  rw [hdrop] at h
  split at h
  · next hnil => exact List.reverse_eq_nil_iff.mp hnil
  · cases h

/-! ### The list of ancestors -/

/-- A path of parts stands below the path of the parts above its last component. -/
theorem above_ofParts {lead ps qs : List (List Char)} (hslash : ∀ p ∈ lead ++ ps, '/' ∉ p)
    (ht : Trimmed ps) (h : parentPieces ps = some qs) :
    Above (Path.ofParts lead qs) (Path.ofParts lead ps) := by
  obtain ⟨-, fillers, q, hps, hfillers, hq⟩ := split_of_parentPieces ht h
  constructor
  · rw [hps]
    exact ofParts_append lead qs _
  · have hslash' : ∀ p ∈ lead ++ qs, '/' ∉ p := by
      intro p hp
      refine hslash p ?_
      rw [hps, ← List.append_assoc]
      exact List.mem_append_left _ hp
    have hqe : (!q.isEmpty) = true := by
      unfold isFiller at hq
      rw [(Bool.or_eq_false_iff.mp hq).1]
      rfl
    refine ⟨partNames (fillers.filter fun p => !p.isEmpty), String.ofList q, ?_, ?_⟩
    · rw [names_ofParts hslash, names_ofParts hslash', hps, ← List.append_assoc,
        List.filter_append, List.filter_append fillers, List.filter_singleton, hqe]
      simp [partNames]
    · intro d hd
      obtain ⟨f, hf, rfl⟩ := List.mem_map.mp hd
      obtain ⟨hf, hfe⟩ := List.mem_filter.mp hf
      have hfiller := hfillers f hf
      unfold isFiller at hfiller
      rcases Bool.or_eq_true_iff.mp hfiller with he | he
      · rw [he] at hfe
        cases hfe
      · rw [beq_iff_eq.mp he]

theorem climbs_above {lead : List (List Char)} (hl : IsLead lead) {ps : List (List Char)} :
    (∀ p ∈ lead ++ ps, '/' ∉ p) → Trimmed ps →
    Climbs (Path.ofParts lead ps :: Path.above lead ps) := by
  fun_induction Path.above lead ps with
  | case1 ps qs hparent ih =>
    intro hslash ht
    have hpre := parentPieces_prefix hparent
    have hqs : ∀ p ∈ lead ++ qs, '/' ∉ p := by
      intro p hp
      refine hslash p ?_
      rcases List.mem_append.mp hp with hp | hp
      · exact List.mem_append_left _ hp
      · exact List.mem_append_right _ (hpre.subset hp)
    exact .step (above_ofParts hslash ht hparent) (ih hqs (split_of_parentPieces ht hparent).1)
  | case2 ps hnone hlead =>
    intro _ ht
    rw [eq_nil_of_parentPieces ht hnone, hlead]
    refine .step ⟨⟨".", by decide⟩, [], ".", by decide, by simp⟩ (.top (.inl rfl))
  | case3 ps hnone hlead =>
    intro _ ht
    rw [eq_nil_of_parentPieces ht hnone]
    rcases hl with rfl | rfl | rfl
    · exact .top (.inl (by decide))
    · exact .top (.inr (by decide))
    · exact absurd rfl hlead

/-- The ancestors of a path that ends in a name climb up from it. -/
theorem climbs_ancestors {p : Path} {q : List Char} (h : p.pieces.getLast? = some q)
    (hq : isFiller q = false) : Climbs p.ancestors := by
  have ht : Trimmed p.lead.2 := by
    have hlast : ∀ ps, ps.getLast? = some q → Trimmed ps := by
      intro ps hps
      obtain ⟨init, rfl⟩ := List.getLast?_eq_some_iff.mp hps
      exact trimmed_append_singleton init hq
    have htail : ∀ r rs, p.pieces = r :: rs → isFiller r = true → rs.getLast? = some q := by
      intro r rs hp hr
      rw [hp] at h
      cases rs with
      | nil =>
        rw [List.getLast?_singleton, Option.some.injEq] at h
        rw [h, hq] at hr
        cases hr
      | cons r' rs => exact h
    unfold Path.lead
    split
    · exact hlast [] (by simp_all)
    · next r rs hp =>
      split
      · next habs =>
        obtain ⟨ps, hps, -⟩ := pieces_of_isAbsolute habs
        rw [hp] at hps
        cases hps
        exact hlast _ (htail _ _ hp rfl)
      · split
        · next hdot => exact hlast _ (htail _ _ hp (by rw [hdot]; rfl))
        · rw [hp] at h
          exact hlast _ h
  have hclimbs := climbs_above (isLead_lead p) not_mem_lead ht
  rw [ofParts_lead] at hclimbs
  exact hclimbs

/-- The ancestors of a file below a directory climb up from it. -/
theorem climbs_ancestors_join (root : Path) {parts : List (List Char)} (h : PlainParts parts) :
    Climbs (root.join (pathOf parts)).ancestors := by
  obtain ⟨init, q, hparts⟩ : ∃ init q, parts = init ++ [q] :=
    ⟨_, _, (List.dropLast_append_getLast h.1).symm⟩
  have hq : isFiller q = false := (h.2 q (by rw [hparts]; simp)).not_filler
  refine climbs_ancestors (q := q) ?_ hq
  by_cases hne : root.text = ""
  · have hj : root.join (pathOf parts) = pathOf parts := by simp [Path.join, hne]
    rw [hj, Output.pieces_pathOf h, hparts]
    simp
  · obtain ⟨ps, -, hpieces, -⟩ := Path.pieces_join hne h
    rw [hpieces, hparts, ← List.append_assoc]
    simp

end Disk
end ModelStubs
