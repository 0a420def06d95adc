/-
# The place that a path spells

In a tree without links a path leads to one place only, if it leads anywhere: the one
that its components spell when they are taken one by one from the top
(`Disk.Path.place`). That place does not depend on the tree. So what a request may
touch can be said before the request is made, and also when it fails half-way.

The paths above a path spell the beginnings of its components
(`Disk.Path.components_of_mem_ancestors`), and a path of parts below a directory spells
the parts below the place of the directory (`Disk.Path.place_join`).

Key definitions: `Disk.Component.enter`, `Disk.placeOf`, `Disk.Path.place`,
`Disk.Path.Passes`, `Disk.landing`.
Key theorems: `Disk.Path.components_of_mem_ancestors`, `Disk.Path.components_join`,
`Disk.Path.place_join`, `Disk.Path.passes_join`, `Disk.Path.passes_iff`,
`Disk.FileTree.Leads.place_eq_landing`, `Disk.FileTree.place_of_resolve`,
`Disk.FileTree.get?_of_passes`, `Disk.FileTree.Writable.place_eq`.
-/
import Mathlib.Data.List.Infix
import ModelStubs.Proofs.Trees

namespace ModelStubs
namespace Disk

open Output (PlainParts pathOf nameComponents)
open FileTree (Route partNames)

/-- The place that a component leads to from another. -/
def Component.enter (base : Names) : Component → Names
  | .root => []
  | .here => base
  | .up => base.dropLast
  | .name s => base ++ [s]

/-- The place that components spell, from the top on. -/
def placeOf (cs : List Component) : Names := cs.foldl Component.enter []

/-- The place that a path spells. -/
def Path.place (p : Path) : Names := placeOf p.components

/-- The place that names lead to if nothing stands in their way. -/
def landing (base : Names) : List String → Names
  | [] => base
  | n :: ns =>
    landing (if n = "." then base else if n = ".." then base.dropLast else base ++ [n]) ns

theorem landing_append (base : Names) : ∀ xs ys : List String,
    landing base (xs ++ ys) = landing (landing base xs) ys
  | [], _ => rfl
  | x :: xs, ys => by
    rw [List.cons_append, landing, landing, landing_append]

/-- Names that are not special are put behind the place. -/
theorem landing_plain : ∀ {ns : List String} {base : Names},
    (∀ n ∈ ns, n ≠ "." ∧ n ≠ "..") → landing base ns = base ++ ns
  | [], base, _ => by simp [landing]
  | n :: ns, base, h => by
    have hn := h n List.mem_cons_self
    have ih : landing (base ++ [n]) ns = base ++ [n] ++ ns :=
      landing_plain fun m hm => h m (List.mem_cons_of_mem _ hm)
    rw [landing, if_neg hn.1, if_neg hn.2, ih]
    simp

theorem placeOf_append (cs ds : List Component) :
    placeOf (cs ++ ds) = ds.foldl Component.enter (placeOf cs) :=
  List.foldl_append

/-- Components that are names are put behind the place. -/
theorem placeOf_append_names (cs : List Component) (parts : List (List Char)) :
    placeOf (cs ++ nameComponents parts) = placeOf cs ++ partNames parts := by
  have h : ∀ (parts : List (List Char)) (base : Names),
      (nameComponents parts).foldl Component.enter base = base ++ partNames parts := by
    intro parts
    induction parts with
    | nil => intro base; simp [nameComponents, partNames]
    | cons p ps ih =>
      intro base
      have hp := ih (base ++ [String.ofList p])
      simpa [nameComponents, partNames, Component.enter] using hp
  rw [placeOf_append, h]

/-! ### Parts and components -/

/-- The components that the lead of a path is. -/
def leadComponents : List (List Char) → List Component
  | [] => []
  | q :: _ => if q = [] then [.root] else [.here]

theorem innerComponents_append (ps qs : List (List Char)) :
    Path.innerComponents (ps ++ qs) = Path.innerComponents ps ++ Path.innerComponents qs := by
  simp [Path.innerComponents]

/-- An empty part is no component. -/
theorem innerComponents_nil_cons (ps : List (List Char)) :
    Path.innerComponents ([] :: ps) = Path.innerComponents ps := by
  simp [Path.innerComponents, isFiller]

/-- The parts of a path that starts at the top start with an empty one. -/
theorem pieces_of_isAbsolute {p : Path} (h : p.isAbsolute = true) :
    ∃ ps, p.pieces = [] :: ps ∧ ps ≠ [] := by
  have hhead : p.text.toList.head? = some '/' := by simpa [Path.isAbsolute] using h
  obtain ⟨s, hs⟩ := List.head?_eq_some_iff.mp hhead
  refine ⟨Text.pieces '/' s, ?_, Text.pieces_ne_nil '/' s⟩
  rw [Path.pieces, hs, Text.pieces_cons_sep]

/-- The parts of a path that does not start at the top do not start with an empty one,
unless the path is empty. -/
theorem pieces_of_not_isAbsolute {p : Path} (h : p.isAbsolute = false) (hne : p.text ≠ "") :
    ∃ q qs, p.pieces = q :: qs ∧ q ≠ [] := by
  cases hs : p.text.toList with
  | nil => exact absurd (String.toList_eq_nil_iff.mp hs) hne
  | cons c s =>
    have hc : c ≠ '/' := by simpa [Path.isAbsolute, hs] using h
    obtain ⟨q, qs, hq⟩ := List.exists_cons_of_ne_nil (Text.pieces_ne_nil '/' s)
    refine ⟨c :: q, qs, ?_, by simp⟩
    rw [Path.pieces, hs, Text.pieces_cons_ne hc hq]

theorem Path.components_of_isAbsolute {p : Path} (h : p.isAbsolute = true) :
    p.components = .root :: innerComponents p.pieces := by
  simp [Path.components, h]

/-- A `.` in front is a component of its own. -/
theorem Path.components_of_here {p : Path} (h : p.isAbsolute = false) {ps : List (List Char)}
    (hp : p.pieces = ['.'] :: ps) : p.components = .here :: innerComponents ps := by
  simp [Path.components, h, hp]

theorem Path.components_of_other {p : Path} (h : p.isAbsolute = false) {q : List Char}
    {ps : List (List Char)} (hp : p.pieces = q :: ps) (hq : q ≠ ['.']) :
    p.components = innerComponents (q :: ps) := by
  rw [Path.components, h, if_neg (by decide), hp]
  split
  · next he => exact absurd (List.cons.inj he).1 hq
  · rfl

/-- What a path names is its lead and the components of the other parts. -/
theorem Path.components_eq_lead (p : Path) :
    p.components = leadComponents p.lead.1 ++ innerComponents p.lead.2 := by
  cases habs : p.isAbsolute with
  | true =>
    obtain ⟨ps, hps, -⟩ := pieces_of_isAbsolute habs
    rw [components_of_isAbsolute habs]
    simp [Path.lead, hps, habs, leadComponents, innerComponents_nil_cons]
  | false =>
    obtain ⟨q, qs, hq⟩ := List.exists_cons_of_ne_nil (Text.pieces_ne_nil '/' p.text.toList)
    have hq : p.pieces = q :: qs := hq
    by_cases hdot : q = ['.']
    · rw [components_of_here habs (hdot ▸ hq)]
      simp [Path.lead, hq, habs, hdot, leadComponents]
    · rw [components_of_other habs hq hdot]
      simp [Path.lead, hq, habs, hdot, leadComponents]

/-! ### Paths above a path -/

/-- The parts above the last component are the first ones. -/
theorem parentPieces_prefix {ps qs : List (List Char)} (h : parentPieces ps = some qs) :
    qs <+: ps := by
  unfold parentPieces at h
  split at h
  · cases h
  · next c r hr =>
    cases h
    have hps : ps.reverse = ps.reverse.takeWhile isFiller ++ c :: r := by
      rw [← hr, List.takeWhile_append_dropWhile]
    have hr' : ps = r.reverse ++ (ps.reverse.takeWhile isFiller ++ [c]).reverse := by
      have e := congrArg List.reverse hps
      simpa using e
    have htrim : trimmedPieces r.reverse <+: r.reverse := by
      rw [trimmedPieces, List.reverse_reverse, List.reverse_prefix]
      exact List.dropWhile_suffix isFiller
    have hpre : r.reverse <+: ps := ⟨_, hr'.symm⟩
    exact htrim.trans hpre

/-- A path above another has the lead and the first parts of it, or is empty. -/
theorem mem_above {lead parts : List (List Char)} {q : Path} (h : q ∈ Path.above lead parts) :
    q = ⟨""⟩ ∨ ∃ qs, qs <+: parts ∧ q = Path.ofParts lead qs := by
  fun_induction Path.above lead parts with
  | case1 parts qs hparent ih =>
    have hpre := parentPieces_prefix hparent
    rcases List.mem_cons.mp h with rfl | h
    · exact .inr ⟨qs, hpre, rfl⟩
    · rcases ih h with he | ⟨rs, hrs, he⟩
      · exact .inl he
      · exact .inr ⟨rs, hrs.trans hpre, he⟩
  | case2 parts hnone hlead => exact .inl (List.mem_singleton.mp h)
  | case3 parts hnone hlead => cases h

/-- Parts of a path are the parts of the text that joins them. -/
theorem pieces_joined_of_mem {p : Path} {ps : List (List Char)} (hps : ps ≠ [])
    (hmem : ∀ q ∈ ps, q ∈ p.pieces) :
    (⟨String.ofList (Text.joined '/' ps)⟩ : Path).pieces = ps := by
  rw [Path.pieces, String.toList_ofList]
  exact Text.pieces_joined '/' ps hps fun q hq =>
    Text.not_mem_of_mem_pieces '/' _ q (hmem q hq)

theorem components_ofParts_of_isAbsolute {p : Path} (habs : p.isAbsolute = true)
    {qs : List (List Char)} (h : qs <+: p.lead.2) :
    (Path.ofParts p.lead.1 qs).components =
      leadComponents p.lead.1 ++ Path.innerComponents qs := by
  obtain ⟨ps, hps, -⟩ := pieces_of_isAbsolute habs
  have hlead : p.lead = ([[]], ps) := by simp [Path.lead, hps, habs]
  rw [hlead] at h ⊢
  cases qs with
  | nil =>
    have htop : (Path.ofParts [[]] []).components = [.root] := by decide
    exact htop
  | cons q qs =>
    have hp : (Path.ofParts [[]] (q :: qs)).pieces = [] :: q :: qs := by
      refine pieces_joined_of_mem (p := p) (by simp) fun r hr => ?_
      rw [hps]
      rcases List.mem_cons.mp hr with rfl | hr
      · exact List.mem_cons_self
      · exact List.mem_cons_of_mem _ (h.subset hr)
    have ha : (Path.ofParts [[]] (q :: qs)).isAbsolute = true := by
      simp [Path.isAbsolute, Path.ofParts, Text.joined]
    rw [Path.components_of_isAbsolute ha, hp, innerComponents_nil_cons]
    rfl

theorem components_ofParts_of_not_isAbsolute {p : Path} (hne : p.text ≠ "")
    (habs : p.isAbsolute = false) {qs : List (List Char)} (h : qs <+: p.lead.2) :
    (Path.ofParts p.lead.1 qs).components =
      leadComponents p.lead.1 ++ Path.innerComponents qs := by
  obtain ⟨q, qs', hq, hqne⟩ := pieces_of_not_isAbsolute habs hne
  have hmem : q ∈ p.pieces := by simp [hq]
  have hqslash : '/' ∉ q := Text.not_mem_of_mem_pieces '/' _ q hmem
  -- a first part that is not empty keeps the path from starting at the top
  have hrel : ∀ ps, (⟨String.ofList (Text.joined '/' (q :: ps))⟩ : Path).isAbsolute = false := by
    intro ps
    obtain ⟨c, s, hcs⟩ := List.exists_cons_of_ne_nil hqne
    have hc : c ≠ '/' := fun e => hqslash (by simp [hcs, e])
    simp [Path.isAbsolute, Output.head_joined hcs, hc]
  by_cases hdot : q = ['.']
  · have hlead : p.lead = ([['.']], qs') := by simp [Path.lead, hq, habs, hdot]
    rw [hlead] at h ⊢
    have hp : (Path.ofParts [['.']] qs).pieces = ['.'] :: qs := by
      refine pieces_joined_of_mem (p := p) (by simp) fun r hr => ?_
      rw [hq, hdot]
      rcases List.mem_cons.mp hr with rfl | hr
      · exact List.mem_cons_self
      · exact List.mem_cons_of_mem _ (h.subset hr)
    have ha : (Path.ofParts [['.']] qs).isAbsolute = false := by
      have e := hrel qs
      rw [hdot] at e
      exact e
    rw [Path.components_of_here ha hp]
    rfl
  · have hlead : p.lead = ([], q :: qs') := by simp [Path.lead, hq, habs, hdot]
    rw [hlead] at h ⊢
    cases qs with
    | nil =>
      have hempty : (Path.ofParts [] []).components = [] := by decide
      exact hempty
    | cons r rs =>
      obtain ⟨rest, hrest⟩ := h
      obtain ⟨rfl, hrs⟩ : r = q ∧ rs ++ rest = qs' := by simpa using hrest
      have hp : (Path.ofParts [] (r :: rs)).pieces = r :: rs := by
        refine pieces_joined_of_mem (p := p) (by simp) fun x hx => ?_
        rw [hq, ← hrs]
        exact List.mem_append_left rest hx
      have ha : (Path.ofParts [] (r :: rs)).isAbsolute = false := hrel rs
      rw [Path.components_of_other ha hp hdot]
      rfl

/-- The first parts of a path behind its lead name the lead and their components. -/
theorem components_ofParts {p : Path} (hne : p.text ≠ "") {qs : List (List Char)}
    (h : qs <+: p.lead.2) :
    (Path.ofParts p.lead.1 qs).components =
      leadComponents p.lead.1 ++ Path.innerComponents qs := by
  cases habs : p.isAbsolute with
  | true => exact components_ofParts_of_isAbsolute habs h
  | false => exact components_ofParts_of_not_isAbsolute hne habs h

/-- The paths above a path name the beginnings of what it names. -/
theorem Path.components_of_mem_ancestors {p q : Path} (h : q ∈ p.ancestors) :
    q.components <+: p.components := by
  unfold Path.ancestors at h
  rcases List.mem_cons.mp h with rfl | h
  · exact List.prefix_rfl
  · by_cases hne : p.text = ""
    · have hp : p = ⟨""⟩ := by cases p; simpa using hne
      rw [hp] at h
      have hnone : above (lead ⟨""⟩).1 (lead ⟨""⟩).2 = [] := by
        rw [show lead ⟨""⟩ = ([], [[]]) by decide, above]
        rfl
      rw [hnone] at h
      cases h
    · rcases mem_above h with rfl | ⟨qs, hqs, rfl⟩
      · rw [show (⟨""⟩ : Path).components = [] by decide]
        exact List.nil_prefix
      · rw [components_ofParts hne hqs, components_eq_lead p]
        have hinner : innerComponents qs <+: innerComponents p.lead.2 := by
          obtain ⟨rest, hrest⟩ := hqs
          rw [← hrest, innerComponents_append]
          exact List.prefix_append _ _
        exact (List.prefix_append_right_inj _).mpr hinner

/-! ### Paths of parts below a directory -/

/-- The parts of a directory, less an empty one at their end, stand before the parts of
a path below it. -/
theorem Path.pieces_join {root : Path} (hne : root.text ≠ "") {parts : List (List Char)}
    (h : PlainParts parts) : ∃ ps, ps ≠ [] ∧ (root.join (pathOf parts)).pieces = ps ++ parts ∧
      (root.pieces = ps ∨ root.pieces = ps ++ [[]]) := by
  have hrel := Output.isAbsolute_pathOf h
  have hparts : Text.pieces '/' (pathOf parts).text.toList = parts := Output.pieces_pathOf h
  by_cases hl : root.text.toList.getLast? = some '/'
  · obtain ⟨s, hs⟩ := List.getLast?_eq_some_iff.mp hl
    have hj : (root.join (pathOf parts)).text = root.text ++ (pathOf parts).text := by
      simp [Path.join, hrel, hne, hl]
    refine ⟨Text.pieces '/' s, Text.pieces_ne_nil '/' s, ?_, .inr ?_⟩
    · rw [Path.pieces, hj, String.toList_append, hs, List.append_assoc, List.singleton_append,
        Text.pieces_append_sep, hparts]
    · rw [Path.pieces, hs, Text.pieces_append_sep]
      rfl
  · have hj : (root.join (pathOf parts)).text = root.text ++ "/" ++ (pathOf parts).text := by
      simp [Path.join, hrel, hne, hl]
    have ht : (root.text ++ "/" ++ (pathOf parts).text).toList =
        root.text.toList ++ '/' :: (pathOf parts).text.toList := by simp
    refine ⟨root.pieces, Text.pieces_ne_nil '/' _, ?_, .inl rfl⟩
    rw [Path.pieces, hj, ht, Text.pieces_append_sep, hparts]
    rfl

/-- A path below a directory starts where the directory does. -/
theorem Path.isAbsolute_join {root : Path} (hne : root.text ≠ "") {parts : List (List Char)}
    (h : PlainParts parts) : (root.join (pathOf parts)).isAbsolute = root.isAbsolute := by
  have hrel := Output.isAbsolute_pathOf h
  have hstart : ∃ t, (root.join (pathOf parts)).text.toList = root.text.toList ++ t := by
    unfold Path.join
    by_cases hl : root.text.toList.getLast? = some '/'
    · simp [hrel, hne, hl]
    · simp [hrel, hne, hl]
  obtain ⟨t, ht⟩ := hstart
  obtain ⟨c, s, hcs⟩ := List.exists_cons_of_ne_nil (mt String.toList_eq_nil_iff.mp hne)
  simp [Path.isAbsolute, ht, hcs]

/-- What a relative path of parts names stands behind what the directory names. -/
theorem Path.components_join (root : Path) {parts : List (List Char)} (h : PlainParts parts) :
    (root.join (pathOf parts)).components = root.components ++ nameComponents parts := by
  by_cases hne : root.text = ""
  · have hroot : root.components = [] := by
      have e : root = ⟨""⟩ := by cases root; simpa using hne
      rw [e]
      decide
    have hj : root.join (pathOf parts) = pathOf parts := by simp [Path.join, hne]
    rw [hj, hroot, Output.components_pathOf h, List.nil_append]
  · have hinner : innerComponents parts = nameComponents parts := Output.innerComponents_plain h.2
    obtain ⟨ps, hps, hpieces, hroot⟩ := pieces_join hne h
    obtain ⟨more, hmore, hfill⟩ : ∃ more, root.pieces = ps ++ more ∧ innerComponents more = [] := by
      rcases hroot with e | e
      · exact ⟨[], by simp [e], rfl⟩
      · exact ⟨[[]], e, by decide⟩
    have hall : innerComponents (ps ++ parts) =
        innerComponents root.pieces ++ nameComponents parts := by
      simp [innerComponents_append, hinner, hmore, hfill]
    cases ha : root.isAbsolute with
    | true =>
      have hj := (isAbsolute_join hne h).trans ha
      rw [components_of_isAbsolute hj, components_of_isAbsolute ha, hpieces, hall]
      rfl
    | false =>
      have hj := (isAbsolute_join hne h).trans ha
      obtain ⟨q, qs, rfl⟩ := List.exists_cons_of_ne_nil hps
      by_cases hq : q = ['.']
      · subst hq
        rw [components_of_here hj hpieces, components_of_here ha hmore]
        simp [innerComponents_append, hinner, hfill]
      · rw [hmore] at hall
        rw [components_of_other hj hpieces hq, components_of_other ha hmore hq]
        exact hall

/-- A path of parts below a directory spells the parts below the place of the directory. -/
theorem Path.place_join (root : Path) {parts : List (List Char)} (h : PlainParts parts) :
    (root.join (pathOf parts)).place = root.place ++ partNames parts := by
  rw [Path.place, Path.components_join root h, placeOf_append_names]
  rfl

/-! ### Places on the way -/

/-- The path leads through a place: a beginning of its components spells it. -/
def Path.Passes (p : Path) (place : Names) : Prop :=
  ∃ cs, cs <+: p.components ∧ placeOf cs = place

instance (p : Path) (place : Names) : Decidable (p.Passes place) :=
  decidable_of_iff ((p.components.inits.any fun cs => placeOf cs == place) = true) <| by
    simp only [List.any_eq_true, List.mem_inits, beq_iff_eq, Path.Passes]

theorem Path.passes_place (p : Path) : p.Passes p.place := ⟨p.components, List.prefix_rfl, rfl⟩

/-- A path that names a beginning leads through no other places. -/
theorem Path.passes_of_prefix {p q : Path} (h : q.components <+: p.components) {place : Names}
    (hq : q.Passes place) : p.Passes place := by
  obtain ⟨cs, hcs, hplace⟩ := hq
  exact ⟨cs, hcs.trans h, hplace⟩

/-- A path of parts below a directory leads through the places of the directory's path, and
then through those that the first of its parts spell. -/
theorem Path.exists_parts_of_passes {root : Path} {parts : List (List Char)} (h : PlainParts parts)
    {place : Names} (hp : (root.join (pathOf parts)).Passes place) :
    root.Passes place ∨ ∃ qs, qs <+: parts ∧ place = root.place ++ partNames qs := by
  obtain ⟨cs, hcs, hplace⟩ := hp
  rw [components_join root h] at hcs
  rcases List.prefix_or_prefix_of_prefix hcs (List.prefix_append root.components _) with hp | hp
  · exact .inl ⟨cs, hp, hplace⟩
  · obtain ⟨ds, rfl⟩ := hp
    rw [List.prefix_append_right_inj] at hcs
    obtain ⟨rest, hrest⟩ := hcs
    obtain ⟨qs, rs, hparts, rfl, -⟩ := List.map_eq_append_iff.mp hrest.symm
    have hnames : placeOf (root.components ++ nameComponents qs) = root.place ++ partNames qs :=
      placeOf_append_names root.components qs
    exact .inr ⟨qs, ⟨rs, hparts.symm⟩, hplace.symm.trans hnames⟩

/-- A path of parts below a directory leads through the places of the directory's path,
and below the directory. -/
theorem Path.passes_join {root : Path} {parts : List (List Char)} (h : PlainParts parts)
    {place : Names} (hp : (root.join (pathOf parts)).Passes place) :
    root.Passes place ∨ root.place <+: place := by
  refine (exists_parts_of_passes h hp).imp id ?_
  rintro ⟨qs, -, rfl⟩
  exact List.prefix_append _ _

/-! ### Names and components spell the same place -/

/-- Parts lead where their components do. -/
theorem landing_partNames : ∀ (ps : List (List Char)) (base : Names),
    landing base (partNames (ps.filter fun p => !p.isEmpty)) =
      (Path.innerComponents ps).foldl Component.enter base
  | [], _ => rfl
  | p :: ps, base => by
    have ih := landing_partNames ps
    have hname : ∀ s : String, String.ofList p = s ↔ p = s.toList := by
      intro s
      rw [← String.toList_inj, String.toList_ofList]
    have hhere : String.ofList p = "." ↔ p = ['.'] := hname "."
    have hup : String.ofList p = ".." ↔ p = ['.', '.'] := hname ".."
    by_cases hempty : p = []
    · simpa [hempty, innerComponents_nil_cons] using ih base
    · have hfilter : (p :: ps).filter (fun q => !q.isEmpty) =
          p :: ps.filter fun q => !q.isEmpty := by simp [hempty]
      rw [hfilter, partNames, List.map_cons, landing]
      by_cases hdot : p = ['.']
      · have hskip : Path.innerComponents (p :: ps) = Path.innerComponents ps := by
          simp [Path.innerComponents, isFiller, hdot]
        rw [if_pos (hhere.mpr hdot), hskip]
        exact ih base
      · have hkeep : Path.innerComponents (p :: ps) = componentOf p :: Path.innerComponents ps := by
          simp [Path.innerComponents, isFiller, hdot, hempty]
        rw [if_neg (mt hhere.mp hdot), hkeep, List.foldl_cons]
        by_cases hdots : p = ['.', '.']
        · rw [if_pos (hup.mpr hdots), componentOf, if_pos hdots]
          exact ih base.dropLast
        · rw [if_neg (mt hup.mp hdots), componentOf, if_neg hdots]
          exact ih (base ++ [String.ofList p])

/-- The names of a path spell its place. -/
theorem Path.place_eq_landing (p : Path) : p.place = landing [] (Route.of p.text).names := by
  have hnames : landing [] (Route.of p.text).names =
      (innerComponents p.pieces).foldl Component.enter [] := landing_partNames p.pieces []
  rw [hnames]
  unfold Path.place placeOf Path.components
  split
  · rfl
  · split
    · next ps hps =>
      have hskip : innerComponents (['.'] :: ps) = innerComponents ps := by
        simp [innerComponents, isFiller]
      rw [hps, hskip]
      rfl
    · rfl

/-- The first components of parts are those of the first parts. -/
theorem exists_prefix_of_innerComponents {ps : List (List Char)} {cs : List Component}
    (h : cs <+: Path.innerComponents ps) : ∃ qs, qs <+: ps ∧ Path.innerComponents qs = cs := by
  obtain ⟨rest, hrest⟩ := h
  obtain ⟨as, bs, hfilter, rfl, -⟩ := List.map_eq_append_iff.mp hrest.symm
  obtain ⟨qs, rs, rfl, hkeep, -⟩ := List.filter_eq_append_iff.mp hfilter
  exact ⟨qs, List.prefix_append _ _, congrArg (List.map componentOf) hkeep⟩

/-- What the first parts of a path name. -/
theorem Path.passes_of_pieces {p : Path} {ps : List (List Char)} (h : ps <+: p.pieces) :
    p.Passes ((innerComponents ps).foldl Component.enter []) := by
  obtain ⟨qs, hpieces⟩ := h
  cases habs : p.isAbsolute with
  | true =>
    refine ⟨.root :: innerComponents ps, ?_, rfl⟩
    rw [components_of_isAbsolute habs, ← hpieces, innerComponents_append]
    exact ⟨innerComponents qs, rfl⟩
  | false =>
    cases ps with
    | nil => exact ⟨[], List.nil_prefix, rfl⟩
    | cons q ps =>
      by_cases hq : q = ['.']
      · subst hq
        have hskip : innerComponents (['.'] :: ps) = innerComponents ps := by
          simp [innerComponents, isFiller]
        rw [hskip]
        refine ⟨.here :: innerComponents ps, ?_, rfl⟩
        rw [components_of_here habs hpieces.symm]
        exact ⟨innerComponents qs, by simp [innerComponents_append]⟩
      · refine ⟨innerComponents (q :: ps), ?_, rfl⟩
        rw [components_of_other habs hpieces.symm hq]
        exact ⟨innerComponents qs, (innerComponents_append (q :: ps) qs).symm⟩

/-- A path leads through the places of its first parts only. -/
theorem Path.exists_pieces_of_passes {p : Path} {place : Names} (h : p.Passes place) :
    ∃ ps, ps <+: p.pieces ∧ (innerComponents ps).foldl Component.enter [] = place := by
  obtain ⟨cs, hcs, rfl⟩ := h
  have hinner : ∀ ds, ds <+: innerComponents p.pieces →
      ∃ ps, ps <+: p.pieces ∧ (innerComponents ps).foldl Component.enter [] = placeOf ds := by
    intro ds hds
    obtain ⟨qs, hqs, rfl⟩ := exists_prefix_of_innerComponents hds
    exact ⟨qs, hqs, rfl⟩
  -- a lead that is a component leaves the place at the top
  have hlead : ∀ c, c.enter [] = [] → p.components = c :: innerComponents p.pieces →
      ∃ ps, ps <+: p.pieces ∧ (innerComponents ps).foldl Component.enter [] = placeOf cs := by
    intro c hc hcomp
    rw [hcomp] at hcs
    rcases List.prefix_cons_iff.mp hcs with rfl | ⟨ds, rfl, hds⟩
    · exact hinner [] List.nil_prefix
    · have hplace : placeOf (c :: ds) = placeOf ds := by simp [placeOf, hc]
      rw [hplace]
      exact hinner ds hds
  cases habs : p.isAbsolute with
  | true => exact hlead .root rfl (components_of_isAbsolute habs)
  | false =>
    obtain ⟨q, ps, hp⟩ := List.exists_cons_of_ne_nil (Text.pieces_ne_nil '/' p.text.toList)
    have hp : p.pieces = q :: ps := hp
    by_cases hq : q = ['.']
    · subst hq
      refine hlead .here rfl ?_
      rw [components_of_here habs hp, hp]
      simp [innerComponents, isFiller]
    · refine hinner cs ?_
      rw [components_of_other habs hp hq, ← hp] at hcs
      exact hcs

/-- A path leads through the places that its first names spell. -/
theorem Path.passes_iff {p : Path} {place : Names} :
    p.Passes place ↔ ∃ xs, xs <+: (Route.of p.text).names ∧ landing [] xs = place := by
  constructor
  · intro h
    obtain ⟨ps, ⟨qs, hqs⟩, rfl⟩ := exists_pieces_of_passes h
    refine ⟨partNames (ps.filter fun q => !q.isEmpty), ?_, landing_partNames ps []⟩
    have hp : Text.pieces '/' p.text.toList = ps ++ qs := hqs.symm
    rw [FileTree.Route.names_of, hp, List.filter_append, partNames, partNames, List.map_append]
    exact List.prefix_append _ _
  · rintro ⟨xs, ⟨rest, hrest⟩, rfl⟩
    rw [FileTree.Route.names_of] at hrest
    obtain ⟨as, bs, hfilter, rfl, -⟩ := List.map_eq_append_iff.mp hrest.symm
    obtain ⟨ps, qs, hps, hkeep, -⟩ := List.filter_eq_append_iff.mp hfilter
    have hland : landing [] (partNames as) = (innerComponents ps).foldl Component.enter [] := by
      rw [← hkeep]
      exact landing_partNames ps []
    have hpieces : p.pieces = ps ++ qs := hps
    have hpass : p.Passes ((innerComponents ps).foldl Component.enter []) :=
      passes_of_pieces ⟨qs, hpieces.symm⟩
    rw [← hland] at hpass
    exact hpass

namespace FileTree

/-- A slash at the end does not change the place. -/
theorem landing_steps (base : Names) (r : Route) : landing base r.steps = landing base r.names := by
  unfold Route.steps
  split
  · rw [landing_append]
    simp [landing]
  · rfl

/-- Without links names lead nowhere but to the place that they spell. -/
theorem Leads.place_eq_landing {t : FileTree} (ht : t.Unlinked) {links rest : Nat}
    {base place : Names} {names : List String} (h : t.Leads links base names rest place) :
    place = landing base names := by
  induction h with
  | done => rfl
  | here _ _ ih => rw [landing, if_pos rfl, ih]
  | up _ _ ih => rw [landing, if_neg (by decide), if_pos rfl, ih]
  | item he _ _ ih => rw [landing, if_neg he.not_here, if_neg he.not_up, ih]
  | link _ hl _ _ => exact absurd hl (ht _ _)

/-- All places above a place that was reached are there, if those above the start are. -/
theorem Leads.rooted {t : FileTree} (ht : t.Unlinked) {links rest : Nat} {base place : Names}
    {names : List String} (h : t.Leads links base names rest place)
    (hbase : ∀ q, q <+: base → t.get? q ≠ none) : ∀ q, q <+: place → t.get? q ≠ none := by
  induction h with
  | done => exact hbase
  | here _ _ ih => exact ih hbase
  | up _ _ ih => exact ih fun q hq => hbase q (hq.trans (List.dropLast_prefix _))
  | item _ hi _ ih =>
    refine ih fun q hq => ?_
    rcases List.prefix_concat_iff.mp hq with rfl | hq
    · simp [hi]
    · exact hbase q hq
  | link _ hl _ _ => exact absurd hl (ht _ _)

/-- A path that leads somewhere leads through places that are there. -/
theorem get?_of_passes {t : FileTree} (ht : t.Unlinked) {p : Path} {place q : Names}
    (h : t.resolve p = .ok place) (hq : p.Passes q) : t.get? q ≠ none := by
  obtain ⟨xs, ⟨ys, hnames⟩, rfl⟩ := Path.passes_iff.mp hq
  obtain ⟨r, rest, hr, hl⟩ := resolve_eq_ok_iff.mp h
  obtain ⟨more, hsteps⟩ : ∃ more, r.steps = xs ++ more := by
    rw [routeOf_eq_ok hr, Route.steps, ← hnames]
    split
    · exact ⟨ys ++ ["."], by simp⟩
    · exact ⟨ys, rfl⟩
  obtain ⟨mid, dir, hfront, -⟩ := hl.split hsteps
  have hroot : ∀ q, q <+: dir → t.get? q ≠ none := by
    refine hfront.rooted ht fun q hq => ?_
    rw [List.prefix_nil.mp hq]
    simp [FileTree.get?]
  rw [← hfront.place_eq_landing ht]
  exact hroot dir List.prefix_rfl

/-- Names before others on the way lead to a directory. -/
theorem directory_of_resolve {t : FileTree} (ht : t.Unlinked) {p : Path} {place : Names}
    (h : t.resolve p = .ok place) {xs ys : List String} {y : String}
    (hnames : (Route.of p.text).names = xs ++ y :: ys) :
    t.get? (landing [] xs) = some (.item .directory) := by
  obtain ⟨r, rest, hr, hl⟩ := resolve_eq_ok_iff.mp h
  obtain ⟨more, hsteps⟩ : ∃ more, r.steps = xs ++ y :: more := by
    rw [routeOf_eq_ok hr, Route.steps, hnames]
    split
    · exact ⟨ys ++ ["."], by simp⟩
    · exact ⟨ys, rfl⟩
  obtain ⟨mid, dir, hfront, hback⟩ := hl.split hsteps
  rw [← hfront.place_eq_landing ht]
  exact hback.start.1

/-- Without links a path leads nowhere but to the place that it spells. -/
theorem place_of_resolve {t : FileTree} (ht : t.Unlinked) {p : Path} {place : Names}
    (h : t.resolve p = .ok place) : place = p.place := by
  obtain ⟨r, rest, hr, hl⟩ := resolve_eq_ok_iff.mp h
  rw [hl.place_eq_landing ht, landing_steps, routeOf_eq_ok hr, p.place_eq_landing]

/-- The place of a new directory is the one that its path spells. -/
theorem place_of_newDirectory {t : FileTree} (ht : t.Unlinked) {p : Path} {place : Names}
    (h : t.newDirectory (Route.of p.text) = .ok place) : place = p.place := by
  unfold newDirectory at h
  split at h
  · cases h
  · next last hlast =>
    split at h
    · cases h
    · next dir last' rest hparent =>
      obtain ⟨hl, -, rfl⟩ := followParent_eq_ok hparent
      split at h
      · cases h
      · next hspecial =>
        obtain ⟨hhere, hup⟩ := not_or.mp hspecial
        split at h
        · cases h
        · split at h
          · cases h
            rw [p.place_eq_landing, getLast?_eq_some hlast, landing_append,
              ← hl.place_eq_landing ht, landing, if_neg hhere, if_neg hup]
            rfl
          · cases h

/-- A text is written to the place that its path spells. -/
theorem Writable.place_eq {t : FileTree} (ht : t.Unlinked) {p : Path} {place : Names}
    (h : t.Writable p place) : place = p.place := by
  obtain ⟨hr, -, hnames, hl, he, -⟩ := h
  rw [p.place_eq_landing, ← routeOf_eq_ok hr, hnames, landing_append, ← hl.place_eq_landing ht,
    landing, if_neg he.not_here, if_neg he.not_up]
  rfl

/-- The target of a write is the place that its path spells. -/
theorem place_of_fileTarget {t : FileTree} (ht : t.Unlinked) {p : Path} {place : Names}
    {hops : Nat} (h : t.fileTarget linkLimit [] (Route.of p.text) hops = .ok place) :
    place = p.place := by
  obtain ⟨dir, last, hlast, -, hl, he, rfl, -⟩ := fileTarget_eq_ok ht h
  rw [p.place_eq_landing, getLast?_eq_some hlast, landing_append, ← hl.place_eq_landing ht,
    landing, if_neg he.not_here, if_neg he.not_up]
  rfl

/-- A write that fails changes nothing. -/
theorem writeText_error {t u : FileTree} {p : Path} {s : String} {e : Error}
    (h : t.writeText p s = (.error e, u)) : u = t := by
  unfold writeText at h
  split at h
  · cases h
    rfl
  · split at h
    · cases h
      rfl
    · cases h

end FileTree
end Disk
end ModelStubs
