/-
# Ways that break off

A path that leads nowhere breaks off at one of its names (`Disk.FileTree.Halts`): what the
names before lead to is no directory, the name is too long, or nothing has the name. Only
the last of these can be mended by what is added to the tree. A way that breaks off for one
of the other reasons (`Disk.FileTree.Dead`) breaks off there forever, and so does every
longer way.

Key definitions: `Disk.FileTree.Halts`, `Disk.FileTree.Dead`, `Disk.FileTree.Unmade`.
Key theorems: `Disk.FileTree.follow_eq_error_iff`, `Disk.FileTree.Dead.grows`,
`Disk.FileTree.newDirectory_eq_error_iff`.
-/
import ModelStubs.Proofs.Places

namespace ModelStubs
namespace Disk
namespace FileTree

/-- Why the way from a place does not go on with a name. -/
inductive Halts (t : FileTree) (base : Names) (n : String) : Error → Prop
  | notDirectory : t.get? base ≠ some (.item .directory) → Halts t base n .notDirectory
  | nameTooLong : t.get? base = some (.item .directory) → n ≠ "." → n ≠ ".." →
      nameLimit < n.utf8ByteSize → Halts t base n .nameTooLong
  | notFound : t.Enters base n → t.get? (base ++ [n]) = none → Halts t base n .notFound

/-- The way along the names breaks off at one of them. -/
def BreaksOff (t : FileTree) (links : Nat) (base : Names) (names : List String) (e : Error) : Prop :=
  ∃ xs n ys dir, names = xs ++ n :: ys ∧ t.Leads links base xs links dir ∧ t.Halts dir n e

theorem follow_of_halts {t : FileTree} {links : Nat} {base : Names} {n : String} {e : Error}
    (h : t.Halts base n e) (ns : List String) : t.follow links base (n :: ns) = .error e := by
  cases h with
  | notDirectory hd => rw [follow, if_pos hd]
  | nameTooLong hd hhere hup hlong =>
    rw [follow, if_neg (Classical.not_not.mpr hd), if_neg hhere, if_neg hup, if_pos hlong]
  | notFound he hnone =>
    rw [follow, if_neg (Classical.not_not.mpr he.directory), if_neg he.not_here, if_neg he.not_up,
      if_neg (Nat.not_lt.mpr he.short), hnone]

/-- Without links a way fails exactly if it breaks off at a name. -/
theorem follow_eq_error_iff {t : FileTree} (ht : t.Unlinked) {links : Nat} {e : Error} :
    ∀ {names : List String} {base : Names},
    t.follow links base names = .error e ↔ t.BreaksOff links base names e := by
  intro names base
  constructor
  · induction names generalizing base with
    | nil =>
      intro h
      rw [follow] at h
      cases h
    | cons n ns ih =>
      intro h
      have hgo : ∀ {next : Names}, t.follow links next ns = .error e →
          t.Leads links base [n] links next → t.BreaksOff links base (n :: ns) e := by
        intro next hnext hlead
        obtain ⟨xs, m, ys, dir, rfl, hl, hh⟩ := ih hnext
        exact ⟨n :: xs, m, ys, dir, rfl, hlead.append hl, hh⟩
      rw [follow] at h
      split at h
      · next hd =>
        cases h
        exact ⟨[], n, ns, base, rfl, .done, .notDirectory hd⟩
      · next hd =>
        have hd := Classical.not_not.mp hd
        split at h
        · next hhere =>
          subst hhere
          exact hgo h (.here hd .done)
        · next hhere =>
          split at h
          · next hup =>
            subst hup
            exact hgo h (.up hd .done)
          · next hup =>
            split at h
            · next hlong =>
              cases h
              exact ⟨[], n, ns, base, rfl, .done, .nameTooLong hd hhere hup hlong⟩
            · next hlong =>
              have he : t.Enters base n := ⟨hd, hhere, hup, Nat.not_lt.mp hlong⟩
              split at h
              · next hnone =>
                cases h
                exact ⟨[], n, ns, base, rfl, .done, .notFound he hnone⟩
              · next target hlink => exact absurd hlink (ht _ _)
              · next node hlink hnode =>
                cases node with
                | item i => exact hgo h (.item he hnode .done)
                | link target => exact absurd hnode (ht _ _)
  · rintro ⟨xs, n, ys, dir, rfl, hl, hh⟩
    rw [hl.follow_append]
    exact follow_of_halts hh ys

/-- The way along the names from the top breaks off. -/
abbrev Dead (t : FileTree) (names : List String) (e : Error) : Prop :=
  t.BreaksOff linkLimit [] names e

namespace Dead

variable {t u : FileTree} {names : List String} {e : Error}

/-- A longer way breaks off at the same name. -/
theorem append (h : t.Dead names e) (more : List String) : t.Dead (names ++ more) e := by
  obtain ⟨xs, n, ys, dir, rfl, hl, hh⟩ := h
  exact ⟨xs, n, ys ++ more, dir, by simp, hl, hh⟩

theorem follow (h : t.Dead names e) : t.follow linkLimit [] names = .error e := by
  obtain ⟨xs, n, ys, dir, rfl, hl, hh⟩ := h
  rw [hl.follow_append]
  exact follow_of_halts hh ys

/-- A way that breaks off leads nowhere. -/
theorem not_leads (h : t.Dead names e) {rest : Nat} {place : Names} :
    ¬ t.Leads linkLimit [] names rest place := by
  intro hl
  have hok := follow_eq_ok_iff.mpr hl
  rw [h.follow] at hok
  cases hok

/-- What is added does not help a way that breaks off, unless a name was missing. -/
theorem grows (h : t.Dead names e) (ht : t.Unlinked) (he : e ≠ .notFound) (hg : Grows t u) :
    u.Dead names e := by
  obtain ⟨xs, n, ys, dir, rfl, hl, hh⟩ := h
  refine ⟨xs, n, ys, dir, rfl, hl.grows hg, ?_⟩
  cases hh with
  | notDirectory hd =>
    refine .notDirectory fun hdir => ?_
    -- something that is no directory stands at the end, and it is a file
    have hthere : t.get? dir ≠ none := by
      refine hl.rooted ht (fun q hq => ?_) dir List.prefix_rfl
      rw [List.prefix_nil.mp hq]
      simp [FileTree.get?]
    cases hnode : t.get? dir with
    | none => exact hthere hnode
    | some node =>
      cases node with
      | link target => exact ht _ _ hnode
      | item i =>
        cases i with
        | directory => exact hd hnode
        | file c =>
          obtain ⟨c', hc'⟩ := hg.file dir c hnode
          rw [HasFile, hdir] at hc'
          cases hc'
  | nameTooLong hd hhere hup hlong => exact .nameTooLong (hg.directory _ hd) hhere hup hlong
  | notFound _ _ => exact absurd rfl he

end Dead

/-- No way goes on from a file. -/
theorem dead_of_file {t : FileTree} {names : List String} {place : Names} {c : Content}
    (hl : t.Leads linkLimit [] names linkLimit place) (hc : t.HasFile place c) (n : String)
    (ns : List String) : t.Dead (names ++ n :: ns) .notDirectory := by
  refine ⟨names, n, ns, place, rfl, hl, .notDirectory fun hd => ?_⟩
  rw [HasFile, hd] at hc
  cases hc

/-- Names that lead to a directory make a path to it. -/
theorem isDirectory_of_leads {t : FileTree} {p : Path} {r : Route} (hr : routeOf p = .ok r)
    {place : Names} (hl : t.Leads linkLimit [] r.names linkLimit place)
    (hd : t.get? place = some (.item .directory)) : t.isDirectory p = true := by
  refine isDirectory_iff.mpr ⟨place, resolve_eq_ok_iff.mpr ⟨r, linkLimit, hr, ?_⟩, hd⟩
  unfold Route.steps
  split
  · exact hl.append (.here hd .done)
  · exact hl

/-- A path to a directory has names that lead there. -/
theorem leads_of_isDirectory {t : FileTree} (ht : t.Unlinked) {p : Path}
    (h : t.isDirectory p = true) : ∃ place,
    t.Leads linkLimit [] (Route.of p.text).names linkLimit place ∧
      t.get? place = some (.item .directory) := by
  obtain ⟨place, hresolve, hd⟩ := isDirectory_iff.mp h
  obtain ⟨r, rest, hr, hl⟩ := resolve_eq_ok_iff.mp hresolve
  have hrest := hl.rest_eq ht
  subst hrest
  rw [routeOf_eq_ok hr, Route.steps] at hl
  split at hl
  · obtain ⟨mid, dir, hfront, hback⟩ := hl.split rfl
    have hmid := hfront.rest_eq ht
    subst hmid
    have hplace := hback.in_place ht (by simp)
    rw [hplace] at hd
    exact ⟨dir, hfront, hd⟩
  · exact ⟨place, hl, hd⟩

/-- What stands above a place on the way is a directory. -/
theorem Leads.directory_above {t : FileTree} (ht : t.Unlinked) {links rest : Nat}
    {base place : Names} {names : List String} (h : t.Leads links base names rest place)
    (hbase : ∀ q, q <+: base → q ≠ base → t.get? q = some (.item .directory)) :
    ∀ q, q <+: place → q ≠ place → t.get? q = some (.item .directory) := by
  induction h with
  | done => exact hbase
  | here _ _ ih => exact ih hbase
  | @up links rest base place ns _ _ ih =>
    refine ih fun q hq hne => hbase q (hq.trans (List.dropLast_prefix _)) ?_
    rintro rfl
    have hlength := hq.length_le
    rw [List.length_dropLast] at hlength
    have hnil : q = [] := List.length_eq_zero_iff.mp (by omega)
    rw [hnil] at hne
    exact hne rfl
  | @item links rest base place n ns i he _ _ ih =>
    refine ih fun q hq hne => ?_
    rcases List.prefix_concat_iff.mp hq with rfl | hq
    · exact absurd rfl hne
    · by_cases hsame : q = base
      · rw [hsame]
        exact he.directory
      · exact hbase q hq hsame
  | link _ hl _ _ => exact absurd hl (ht _ _)

/-- The directory above one that was reached is a directory. -/
theorem Leads.directory_up {t : FileTree} (ht : t.Unlinked) {place : Names} {names : List String}
    (h : t.Leads linkLimit [] names linkLimit place)
    (hd : t.get? place = some (.item .directory)) :
    t.get? place.dropLast = some (.item .directory) := by
  by_cases hsame : place.dropLast = place
  · rw [hsame]
    exact hd
  · refine h.directory_above ht (fun q hq hne => ?_) _ (List.dropLast_prefix _) hsame
    exact absurd (List.prefix_nil.mp hq) hne

/-! ### Making one directory -/

/-- How a route may fail to make a directory: its way breaks off above, at the last name,
or the last name is taken. -/
inductive Unmade (t : FileTree) (r : Route) : Error → Prop
  | top : r.names = [] → Unmade t r .alreadyExists
  | above {init : List String} {last : String} {e : Error} : r.names = init ++ [last] →
      t.Dead init e → Unmade t r e
  | last {init : List String} {last : String} {dir : Names} {e : Error} :
      r.names = init ++ [last] → t.Leads linkLimit [] init linkLimit dir → t.Halts dir last e →
      e ≠ .notFound → Unmade t r e
  | special {init : List String} {last : String} {dir : Names} : r.names = init ++ [last] →
      t.Leads linkLimit [] init linkLimit dir → t.get? dir = some (.item .directory) →
      last = "." ∨ last = ".." → Unmade t r .alreadyExists
  | taken {init : List String} {last : String} {dir : Names} {i : Item} :
      r.names = init ++ [last] → t.Leads linkLimit [] init linkLimit dir → t.Enters dir last →
      t.get? (dir ++ [last]) = some (.item i) → Unmade t r .alreadyExists

/-- The names of a route are none, or there is a last one. -/
theorem Route.names_cases (r : Route) : r.names = [] ∨ ∃ init last, r.names = init ++ [last] := by
  rcases List.eq_nil_or_concat r.names with h | ⟨init, last, h⟩
  · exact .inl h
  · exact .inr ⟨init, last, by rw [h, List.concat_eq_append]⟩

section LastName

variable {t : FileTree} {r : Route} {init : List String} {last : String} {dir : Names} {e : Error}

/-- With no directory at the end of the way there is no new one. -/
theorem newDirectory_of_not_directory (hnames : r.names = init ++ [last])
    (hl : t.Leads linkLimit [] init linkLimit dir) (hd : t.get? dir ≠ some (.item .directory)) :
    t.newDirectory r = .error .notDirectory := by
  simp only [newDirectory, hnames, List.getLast?_concat, List.dropLast_concat, followParent,
    follow_eq_ok_iff.mpr hl, if_pos hd]

/-- With a directory at the end of the way the last name decides. -/
theorem newDirectory_of_directory (hnames : r.names = init ++ [last])
    (hl : t.Leads linkLimit [] init linkLimit dir) (hd : t.get? dir = some (.item .directory)) :
    t.newDirectory r =
      if last = "." ∨ last = ".." then .error .alreadyExists
      else if nameLimit < last.utf8ByteSize then .error .nameTooLong
      else if t.get? (dir ++ [last]) = none then .ok (dir ++ [last])
      else .error .alreadyExists := by
  simp only [newDirectory, hnames, List.getLast?_concat, List.dropLast_concat, followParent,
    follow_eq_ok_iff.mpr hl, if_neg (not_not_intro hd)]
  cases t.get? (dir ++ [last]) with
  | none => simp
  | some node => simp

/-- A last name that makes no directory is none, is too long or is taken. -/
theorem unmade_of_directory (ht : t.Unlinked) (hnames : r.names = init ++ [last])
    (hl : t.Leads linkLimit [] init linkLimit dir) (hd : t.get? dir = some (.item .directory))
    (h : t.newDirectory r = .error e) : t.Unmade r e := by
  rw [newDirectory_of_directory hnames hl hd] at h
  split at h
  · next hspecial =>
    cases h
    exact .special hnames hl hd hspecial
  · next hspecial =>
    obtain ⟨hhere, hup⟩ := not_or.mp hspecial
    split at h
    · next hlong =>
      cases h
      exact .last hnames hl (.nameTooLong hd hhere hup hlong) (by simp)
    · next hlong =>
      split at h
      · cases h
      · next hnode =>
        cases h
        obtain ⟨node, hnode⟩ := Option.ne_none_iff_exists'.mp hnode
        cases node with
        | link target => exact absurd hnode (ht _ _)
        | item i => exact .taken hnames hl ⟨hd, hhere, hup, Nat.not_lt.mp hlong⟩ hnode

end LastName

theorem unmade_of_newDirectory {t : FileTree} (ht : t.Unlinked) {r : Route} {e : Error}
    (h : t.newDirectory r = .error e) : t.Unmade r e := by
  rcases r.names_cases with hnil | ⟨init, last, hnames⟩
  · rw [newDirectory, hnil] at h
    cases h
    exact .top hnil
  · cases hf : t.follow linkLimit [] init with
    | error e' =>
      simp only [newDirectory, hnames, List.getLast?_concat, List.dropLast_concat, followParent,
        hf] at h
      cases h
      exact .above hnames ((follow_eq_error_iff ht).mp hf)
    | ok found =>
      obtain ⟨dir, rest⟩ := found
      have hl := follow_eq_ok_iff.mp hf
      have hrest := hl.rest_eq ht
      subst hrest
      by_cases hd : t.get? dir = some (.item .directory)
      · exact unmade_of_directory ht hnames hl hd h
      · rw [newDirectory_of_not_directory hnames hl hd] at h
        cases h
        exact .last hnames hl (.notDirectory hd) (by simp)

theorem Unmade.newDirectory {t : FileTree} {r : Route} {e : Error} (h : t.Unmade r e) :
    t.newDirectory r = .error e := by
  cases h with
  | top hnil =>
    rw [FileTree.newDirectory, hnil]
    rfl
  | above hnames hdead =>
    simp only [FileTree.newDirectory, hnames, List.getLast?_concat, List.dropLast_concat,
      followParent, hdead.follow]
  | last hnames hl hh hne =>
    cases hh with
    | notDirectory hd => exact newDirectory_of_not_directory hnames hl hd
    | nameTooLong hd hhere hup hlong =>
      rw [newDirectory_of_directory hnames hl hd, if_neg (not_or.mpr ⟨hhere, hup⟩), if_pos hlong]
    | notFound _ _ => exact absurd rfl hne
  | special hnames hl hd hspecial =>
    rw [newDirectory_of_directory hnames hl hd, if_pos hspecial]
  | taken hnames hl he hi =>
    rw [newDirectory_of_directory hnames hl he.directory,
      if_neg (not_or.mpr ⟨he.not_here, he.not_up⟩), if_neg (Nat.not_lt.mpr he.short),
      if_neg (by rw [hi]; simp)]

/-- A route that makes no directory fails in one of these ways. -/
theorem newDirectory_eq_error_iff {t : FileTree} (ht : t.Unlinked) {r : Route} {e : Error} :
    t.newDirectory r = .error e ↔ t.Unmade r e :=
  ⟨unmade_of_newDirectory ht, Unmade.newDirectory⟩

end FileTree
end Disk
end ModelStubs
