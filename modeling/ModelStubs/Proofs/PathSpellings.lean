/-
# Spellings of a path

Two texts name the same path if one comes from the other by dropping what stands for nothing:
one of two slashes in a row, a `.` between or behind slashes, a slash at the end. A text with
nothing left to drop can be read off the components (`Disk.Path.ofComponents`), and every text
comes down to it (`Disk.Path.respelled_ofComponents`). So the components are the same exactly if
the texts are spellings of each other (`Disk.Path.respelled_iff`); a `.` in front stays, and so
does every `..`.

Paths stand in the order of their components, the first difference decides. The top comes before
everything else, then `.`, then `..`, then the names in the order of their bytes.

Key definitions: `Disk.Path.Drops`, `Disk.Path.Respelled`, `Disk.Path.ofComponents`,
`Disk.Component.Before`, `Disk.Path.Before`.
Key theorems: `Disk.Path.respelled_ofComponents`, `Disk.Path.respelled_iff`,
`Disk.Path.before_of_compare`.
-/
import Mathlib.Logic.Relation
import ModelStubs.Proofs.PathBytes

namespace ModelStubs
namespace Disk

open Output (pathOf)

/-- The second path is the first without something that stands for nothing. -/
inductive Path.Drops : Path → Path → Prop
  /-- One of two slashes. -/
  | slash (s t : String) : Drops ⟨s ++ "//" ++ t⟩ ⟨s ++ "/" ++ t⟩
  /-- A `.` between slashes. -/
  | here (s t : String) : Drops ⟨s ++ "/./" ++ t⟩ ⟨s ++ "/" ++ t⟩
  /-- A `.` at the end. -/
  | lastHere (s : String) : Drops ⟨s ++ "/."⟩ ⟨s ++ "/"⟩
  /-- A slash at the end, unless it is all there is. -/
  | lastSlash (s : String) : s ≠ "" → Drops ⟨s ++ "/"⟩ ⟨s⟩

/-- The paths are spelled alike up to what stands for nothing. -/
def Path.Respelled : Path → Path → Prop := Relation.EqvGen Path.Drops

/-- What a component is written as between slashes. -/
def Component.part : Component → List Char
  | .root => []
  | .here => ['.']
  | .up => ['.', '.']
  | .name s => s.toList

/-- The shortest spelling of components. -/
def Path.ofComponents : List Component → Path
  | [.root] => ⟨"/"⟩
  | cs => pathOf (cs.map Component.part)

theorem isFiller_iff {x : List Char} : isFiller x = true ↔ x = [] ∨ x = ['.'] := by
  simp [isFiller]

theorem slash_not_mem_of_isFiller {x : List Char} (hx : isFiller x = true) : '/' ∉ x := by
  rcases isFiller_iff.mp hx with rfl | rfl
  · decide
  · decide

/-! ### What is dropped is no component -/

/-- Paths that start alike and differ in fillers only have the same components. -/
theorem Path.components_congr {p q : Path} (habs : p.isAbsolute = q.isAbsolute)
    {ps xs ys : List (List Char)} (hps : ps ≠ []) (hp : p.pieces = ps ++ xs)
    (hq : q.pieces = ps ++ ys) (h : innerComponents xs = innerComponents ys) :
    p.components = q.components := by
  have hall : ∀ rs, innerComponents (rs ++ xs) = innerComponents (rs ++ ys) := by
    intro rs
    rw [innerComponents_append, innerComponents_append, h]
  cases ha : q.isAbsolute with
  | true =>
    rw [components_of_isAbsolute (habs.trans ha), components_of_isAbsolute ha, hp, hq, hall]
  | false =>
    obtain ⟨r, rs, rfl⟩ := List.exists_cons_of_ne_nil hps
    by_cases hr : r = ['.']
    · rw [hr] at hp hq
      rw [components_of_here (habs.trans ha) hp, components_of_here ha hq]
      simp [hall]
    · rw [components_of_other (habs.trans ha) hp hr, components_of_other ha hq hr]
      exact hall (r :: rs)

theorem Path.isAbsolute_append {s : String} (hs : s ≠ "") (t : String) :
    (⟨s ++ t⟩ : Path).isAbsolute = (⟨s⟩ : Path).isAbsolute := by
  obtain ⟨c, r, hcr⟩ := List.exists_cons_of_ne_nil (mt String.toList_eq_nil_iff.mp hs)
  simp [Path.isAbsolute, hcr]

/-- Two texts that go on with a slash start alike. -/
theorem Path.isAbsolute_slash (s t u : String) :
    (⟨s ++ "/" ++ t⟩ : Path).isAbsolute = (⟨s ++ "/" ++ u⟩ : Path).isAbsolute := by
  by_cases hs : s = ""
  · simp [Path.isAbsolute, hs]
  · rw [String.append_assoc, String.append_assoc, isAbsolute_append hs, isAbsolute_append hs]

/-- A slash divides the text of a path into its pieces. -/
theorem Path.pieces_slash (s t : String) :
    (⟨s ++ "/" ++ t⟩ : Path).pieces = Text.pieces '/' s.toList ++ Text.pieces '/' t.toList := by
  have htext : (s ++ "/" ++ t).toList = s.toList ++ '/' :: t.toList := by simp
  rw [Path.pieces, htext, Text.pieces_append_sep]

/-- A filler is one piece, whatever stands behind the next slash. -/
theorem Path.pieces_filler {x : List Char} (hx : isFiller x = true) (s t : String) :
    (⟨s ++ "/" ++ (String.ofList x ++ "/" ++ t)⟩ : Path).pieces =
      Text.pieces '/' s.toList ++ x :: Text.pieces '/' t.toList := by
  have hslash : '/' ∉ x := slash_not_mem_of_isFiller hx
  have htext : (String.ofList x ++ "/" ++ t).toList = x ++ '/' :: t.toList := by simp
  rw [pieces_slash, htext, Text.pieces_append_cons '/' x t.toList hslash]

theorem Path.innerComponents_filler {x : List Char} (hx : isFiller x = true)
    (ps : List (List Char)) : innerComponents (x :: ps) = innerComponents ps := by
  simp [innerComponents, hx]

/-- Two slashes are slashes around an empty filler. -/
theorem slash_slash (s t : String) :
    s ++ "//" ++ t = s ++ "/" ++ (String.ofList [] ++ "/" ++ t) := by
  have htwo : "//" = "/" ++ "/" := rfl
  have hnone : String.ofList [] ++ "/" = "/" := rfl
  rw [htwo, hnone]
  simp only [String.append_assoc]

theorem slash_here (s t : String) :
    s ++ "/./" ++ t = s ++ "/" ++ (String.ofList ['.'] ++ "/" ++ t) := by
  have hthree : "/./" = "/" ++ ("." ++ "/") := rfl
  have hdot : String.ofList ['.'] = "." := rfl
  rw [hthree, hdot]
  simp only [String.append_assoc]

theorem Path.components_inner {x : List Char} (hx : isFiller x = true) (s t : String) :
    (⟨s ++ "/" ++ (String.ofList x ++ "/" ++ t)⟩ : Path).components =
      (⟨s ++ "/" ++ t⟩ : Path).components :=
  components_congr (isAbsolute_slash s _ _) (Text.pieces_ne_nil '/' _) (pieces_filler hx s t)
    (pieces_slash s t) (innerComponents_filler hx _)

/-- A filler at the end of a text, and the slash before it, are no components. -/
theorem Path.components_last {x : List Char} (hx : isFiller x = true) {s : String} (hs : s ≠ "") :
    (⟨s ++ "/" ++ String.ofList x⟩ : Path).components = (⟨s⟩ : Path).components := by
  have hslash : '/' ∉ x := slash_not_mem_of_isFiller hx
  have hp : (⟨s ++ "/" ++ String.ofList x⟩ : Path).pieces = Text.pieces '/' s.toList ++ [x] := by
    rw [pieces_slash, String.toList_ofList, Text.pieces_of_not_mem '/' x hslash]
  have habs : (⟨s ++ "/" ++ String.ofList x⟩ : Path).isAbsolute = (⟨s⟩ : Path).isAbsolute := by
    rw [String.append_assoc, isAbsolute_append hs]
  exact components_congr habs (Text.pieces_ne_nil '/' _) hp (List.append_nil _).symm
    (innerComponents_filler hx [])

theorem Path.Drops.components_eq {p q : Path} (h : p.Drops q) : p.components = q.components := by
  cases h with
  | slash s t =>
    rw [slash_slash]
    exact components_inner rfl s t
  | here s t =>
    rw [slash_here]
    exact components_inner rfl s t
  | lastHere s =>
    by_cases hs : s = ""
    · rw [hs]
      rfl
    · have hdot := components_last (x := ['.']) rfl hs
      have hnone := components_last (x := []) rfl hs
      rw [← hnone] at hdot
      simpa [String.append_assoc] using hdot
  | lastSlash s hs =>
    have hnone := components_last (x := []) rfl hs
    simpa using hnone

/-! ### Dropping all there is to drop -/

namespace Path

theorem Respelled.refl (p : Path) : p.Respelled p := Relation.EqvGen.refl p

theorem Respelled.trans {p q r : Path} (h : p.Respelled q) (h' : q.Respelled r) : p.Respelled r :=
  Relation.EqvGen.trans _ _ _ h h'

theorem Drops.respelled {p q : Path} (h : p.Drops q) : p.Respelled q := Relation.EqvGen.rel _ _ h

theorem pathOf_pieces (p : Path) : pathOf p.pieces = p := by
  rw [pathOf, pieces, Text.joined_pieces, String.ofList_toList]

theorem text_pathOf_append {ps qs : List (List Char)} (hp : ps ≠ []) (hq : qs ≠ []) :
    (pathOf (ps ++ qs)).text = (pathOf ps).text ++ "/" ++ (pathOf qs).text := by
  rw [← String.toList_inj]
  simp [pathOf, Text.joined_append '/' hp hq]

/-- Parts have no text together only if there is just an empty one. -/
theorem text_pathOf_ne {ps : List (List Char)} (hp : ps ≠ []) (htop : ps ≠ [[]]) :
    (pathOf ps).text ≠ "" := by
  intro he
  have hnil : Text.joined '/' ps = [] := by
    simpa [pathOf] using he
  obtain ⟨p, qs, rfl⟩ := List.exists_cons_of_ne_nil hp
  cases qs with
  | nil => exact htop (congrArg (fun q => [q]) hnil)
  | cons q qs => simp [Text.joined] at hnil

/-- A filler that other parts stand behind is dropped. -/
theorem respelled_inner {ps qs : List (List Char)} (hp : ps ≠ []) (hq : qs ≠ [])
    {x : List Char} (hx : isFiller x = true) :
    (pathOf (ps ++ x :: qs)).Respelled (pathOf (ps ++ qs)) := by
  have htext : (pathOf (x :: qs)).text = String.ofList x ++ "/" ++ (pathOf qs).text := by
    rw [← List.singleton_append, text_pathOf_append (by simp) hq]
    rfl
  have hlong : pathOf (ps ++ x :: qs) =
      ⟨(pathOf ps).text ++ "/" ++ (String.ofList x ++ "/" ++ (pathOf qs).text)⟩ := by
    rw [← htext, ← text_pathOf_append hp (by simp)]
  have hshort : pathOf (ps ++ qs) = ⟨(pathOf ps).text ++ "/" ++ (pathOf qs).text⟩ := by
    rw [← text_pathOf_append hp hq]
  rw [hlong, hshort]
  rcases isFiller_iff.mp hx with rfl | rfl
  · rw [← slash_slash]
    exact (Drops.slash _ _).respelled
  · rw [← slash_here]
    exact (Drops.here _ _).respelled

/-- A filler at the end is dropped, with the slash before it. -/
theorem respelled_last {ps : List (List Char)} (hp : ps ≠ []) (htop : ps ≠ [[]])
    {x : List Char} (hx : isFiller x = true) :
    (pathOf (ps ++ [x])).Respelled (pathOf ps) := by
  have hlong : pathOf (ps ++ [x]) = ⟨(pathOf ps).text ++ "/" ++ String.ofList x⟩ := by
    rw [show String.ofList x = (pathOf [x]).text from rfl, ← text_pathOf_append hp (by simp)]
  have hslash := (Drops.lastSlash _ (text_pathOf_ne hp htop)).respelled
  rw [hlong]
  rcases isFiller_iff.mp hx with rfl | rfl
  · simpa using hslash
  · have hdot := (Drops.lastHere (pathOf ps).text).respelled
    have hboth := hdot.trans hslash
    rwa [String.append_assoc]

theorem ofParts_eq_pathOf {ps : List (List Char)} (htop : ps ≠ [[]]) (qs : List (List Char)) :
    ofParts ps qs = pathOf (ps ++ qs) := by
  unfold ofParts
  split
  · exact absurd rfl htop
  · rfl

/-- Behind the first parts every filler can be dropped; of the top a slash is left. -/
theorem respelled_ofParts : ∀ qs ps : List (List Char), ps ≠ [] →
    (ps ≠ [[]] ∨ qs ≠ []) →
    (pathOf (ps ++ qs)).Respelled (ofParts ps (qs.filter fun q => !isFiller q))
  | [], ps, _, h => by
    have htop : ps ≠ [[]] := h.resolve_right (by simp)
    rw [List.filter_nil, ofParts_eq_pathOf htop]
    exact .refl _
  | x :: qs, ps, hp, _ => by
    by_cases hx : isFiller x = true
    · rw [List.filter_cons_of_neg (by simpa using hx)]
      by_cases hq : qs = []
      · by_cases htop : ps = [[]]
        · -- only the slash of the top is left
          rw [hq, htop]
          rcases isFiller_iff.mp hx with rfl | rfl
          · exact .refl _
          · exact (Drops.lastHere "").respelled
        · have ih := respelled_ofParts qs ps hp (.inl htop)
          have hlast := respelled_last hp htop hx
          rw [hq, List.append_nil] at ih
          rw [hq]
          exact hlast.trans ih
      · exact (respelled_inner hp hq hx).trans (respelled_ofParts qs ps hp (.inr hq))
    · have htop : ps ++ [x] ≠ [[]] := by
        intro he
        have hlength := congrArg List.length he
        simp [hp] at hlength
      have ih := respelled_ofParts qs (ps ++ [x]) (by simp) (.inl htop)
      have hmore : ofParts (ps ++ [x]) (qs.filter fun q => !isFiller q) =
          ofParts ps (x :: qs.filter fun q => !isFiller q) := by
        rw [ofParts_eq_pathOf htop]
        simp [ofParts, pathOf]
      rw [List.filter_cons_of_pos (by simpa using hx), ← hmore]
      simpa using ih

theorem part_componentOf (q : List Char) : (componentOf q).part = q := by
  unfold componentOf
  split
  · next h => rw [h]; rfl
  · exact String.toList_ofList

theorem map_part_innerComponents (qs : List (List Char)) :
    (innerComponents qs).map Component.part = qs.filter fun q => !isFiller q := by
  simp [innerComponents, Function.comp_def, part_componentOf]

theorem ofComponents_root (cs : List Component) :
    ofComponents (.root :: cs) = ofParts [[]] (cs.map Component.part) := by
  cases cs with
  | nil => rfl
  | cons c cs => rfl

theorem ofComponents_cons {c : Component} (hc : c ≠ .root) (cs : List Component) :
    ofComponents (c :: cs) = pathOf (c.part :: cs.map Component.part) := by
  unfold ofComponents
  split
  · next he => exact absurd (List.cons.inj he).1 hc
  · rfl

theorem componentOf_ne_root (q : List Char) : componentOf q ≠ .root := by
  unfold componentOf
  split
  · simp
  · simp

/-- Every path comes down to the shortest spelling of what it names. -/
theorem respelled_ofComponents (p : Path) : p.Respelled (ofComponents p.components) := by
  cases habs : p.isAbsolute with
  | true =>
    obtain ⟨ps, hps, hne⟩ := pieces_of_isAbsolute habs
    have hdown := respelled_ofParts ps [[]] (by simp) (.inr hne)
    rw [List.singleton_append, ← hps, pathOf_pieces] at hdown
    rw [components_of_isAbsolute habs, hps, innerComponents_nil_cons, ofComponents_root,
      map_part_innerComponents]
    exact hdown
  | false =>
    by_cases hempty : p.text = ""
    · have hp : p = ⟨""⟩ := by cases p; simpa using hempty
      rw [hp]
      exact .refl _
    · obtain ⟨q, qs, hq, hqne⟩ := pieces_of_not_isAbsolute habs hempty
      have htop : [q] ≠ [[]] := by simpa using hqne
      have hdown := respelled_ofParts qs [q] (by simp) (.inl htop)
      rw [ofParts_eq_pathOf htop, List.singleton_append, List.singleton_append, ← hq,
        pathOf_pieces] at hdown
      by_cases hdot : q = ['.']
      · rw [hdot] at hq hdown
        rw [components_of_here habs hq, ofComponents_cons (by simp), map_part_innerComponents]
        exact hdown
      · have hkept : isFiller q = false := by
          rw [Bool.eq_false_iff, ne_eq, isFiller_iff]
          exact not_or.mpr ⟨hqne, hdot⟩
        have hinner : innerComponents (q :: qs) = componentOf q :: innerComponents qs := by
          simp [innerComponents, hkept]
        rw [components_of_other habs hq hdot, hinner, ofComponents_cons (componentOf_ne_root q),
          part_componentOf, map_part_innerComponents]
        exact hdown

/-- **The components are what all spellings of a path share.** Two paths have the same
components if and only if one comes from the other by dropping or putting in what stands for
nothing. -/
theorem respelled_iff {p q : Path} : p.Respelled q ↔ p.components = q.components := by
  constructor
  · intro h
    induction h with
    | rel p q hdrop => exact hdrop.components_eq
    | refl p => rfl
    | symm p q _ ih => exact ih.symm
    | trans p q r _ _ ihp ihq => exact ihp.trans ihq
  · intro h
    have hp := respelled_ofComponents p
    have hq := respelled_ofComponents q
    rw [h] at hp
    exact hp.trans (Relation.EqvGen.symm _ _ hq)

end Path

/-! ### The order of paths -/

/-- One component comes before another: by its kind, and names by their bytes. -/
inductive Component.Before : Component → Component → Prop
  | kind {c d : Component} : c.rank < d.rank → Before c d
  | name {s t : String} : bytesOf s < bytesOf t → Before (.name s) (.name t)

/-- One path comes before another in the order of components. -/
def Path.Before (p q : Path) : Prop := List.Lex Component.Before p.components q.components

theorem Component.before_of_compare {c d : Component} (h : compare c d = .lt) : c.Before d := by
  have h : (compare c.rank d.rank).then (compare c.label d.label) = .lt := h
  rw [Ordering.then_eq_lt] at h
  rcases h with h | ⟨hrank, hlabel⟩
  · exact .kind (Nat.compare_eq_lt.mp h)
  · rw [Std.compare_eq_iff_eq] at hrank
    rw [Listing.compare_eq_lt_iff] at hlabel
    -- of one kind there are two components only if they are names
    match c, d, hrank, hlabel with
    | .name s, .name t, _, hlabel => exact .name (bytesOf_lt hlabel)
    | .root, .root, _, hlabel => exact absurd hlabel (String.lt_irrefl _)
    | .here, .here, _, hlabel => exact absurd hlabel (String.lt_irrefl _)
    | .up, .up, _, hlabel => exact absurd hlabel (String.lt_irrefl _)

theorem lex_of_compare : ∀ {cs ds : List Component}, compare cs ds = .lt →
    List.Lex Component.Before cs ds
  | [], [], h => by cases h
  | [], _ :: _, _ => .nil
  | _ :: _, [], h => by cases h
  | c :: cs, d :: ds, h => by
    rw [List.compare_cons_cons, Ordering.then_eq_lt] at h
    rcases h with h | ⟨heq, h⟩
    · exact .rel (Component.before_of_compare h)
    · rw [Std.compare_eq_iff_eq] at heq
      rw [heq]
      exact .cons (lex_of_compare h)

/-- Paths whose components are in order are in order. -/
theorem Path.before_of_compare {p q : Path} (h : compare p.components q.components = .lt) :
    p.Before q := lex_of_compare h

end Disk
end ModelStubs
