/-
# What a walk finds

A walk finds every file that stands below its start, if its path leads to it
(`Disk.FileTree.mem_walk_of_file`), and without links it finds no others. It finds its files
in the order of their names, so two walks that find the same files find them in the same
order (`Disk.FileTree.eq_of_mem_iff`).

What a run writes are directories and stubs, and neither is a model file. So the model
files that are found after a run are those that were found before
(`Project.foundFiles_of_changes`).

Key theorems: `Disk.FileTree.mem_walk_of_file`, `Disk.FileTree.eq_of_mem_iff`,
`Project.mem_foundFiles_iff`, `Project.foundFiles_of_changes`.
-/
import ModelStubs.Proofs.DeadEnds
import ModelStubs.Proofs.LinkedWalks
import ModelStubs.Proofs.StubWrites

namespace ModelStubs

namespace Disk
namespace FileTree

/-! ### The files of a walk -/

section Walk

variable {t : FileTree} {start : Path}

/-- A walk finds every file that stands below the directory, if its path leads to it. -/
theorem mem_walk_of_file (hp : t.Proper) (hr : t.Rooted) {c : Content} :
    ∀ {rest : Names} {inside : List Names} {place shown : Names}, rest ≠ [] →
      t.HasFile (place ++ rest) c → t.holds (start.below (shown ++ rest)) = true →
      shown ++ rest ∈ t.walk start inside place shown
  | [], _, _, _, hne, _, _ => absurd rfl hne
  | n :: ns, inside, place, shown, _, hc, hholds => by
    rw [walk_eq_under, List.mem_flatMap]
    by_cases hns : ns = []
    · subst hns
      refine ⟨(n, .item (.file c)), hp.mem_children.mpr hc, ?_⟩
      simp [under, leadOf, hholds]
    · have hbelow : t.HasFile (place ++ [n] ++ ns) c := by simpa using hc
      have hsplit : shown ++ n :: ns = shown ++ [n] ++ ns := by simp
      have hd := hr.directory_of_prefix hns hbelow
      refine ⟨(n, .item .directory), hp.mem_children.mpr hd, ?_⟩
      rw [hsplit] at hholds ⊢
      exact mem_walk_of_file hp hr hns hbelow hholds

/-- Lists in the order of the names are the same if they have the same members. -/
theorem eq_of_mem_iff {xs ys : List Names} (hx : xs.Pairwise (· < ·)) (hy : ys.Pairwise (· < ·))
    (h : ∀ names, names ∈ xs ↔ names ∈ ys) : xs = ys := by
  have hne : ∀ {a b : Names}, a < b → a ≠ b := by
    rintro a b hab rfl
    exact List.lt_irrefl a hab
  have hperm : xs.Perm ys :=
    (List.perm_ext_iff_of_nodup (hx.imp hne) (hy.imp hne)).mpr h
  exact hperm.eq_of_pairwise (fun a b _ _ hab hba => absurd hba (List.lt_asymm hab)) hx hy

end Walk

/-! ### Paths to what was there before -/

/-- A way that does not go up leads below its start. -/
theorem Leads.prefix_of_down {t : FileTree} (ht : t.Unlinked) {links rest : Nat}
    {base place : Names} {names : List String} (h : t.Leads links base names rest place)
    (hn : ∀ n ∈ names, n ≠ "..") : base <+: place := by
  induction h with
  | done => exact List.prefix_rfl
  | here _ _ ih => exact ih fun n hm => hn n (List.mem_cons_of_mem _ hm)
  | up => exact absurd rfl (hn ".." List.mem_cons_self)
  | item _ _ _ ih =>
    exact (List.prefix_append _ _).trans (ih fun n hm => hn n (List.mem_cons_of_mem _ hm))
  | link _ hl _ _ => exact absurd hl (ht _ _)

/-- What is a directory now and was there before was one before. -/
theorem Grows.directory_before {t u : FileTree} (h : Grows t u) (ht : t.Unlinked) {place : Names}
    {n : Node} (hn : t.get? place = some n) (hd : u.get? place = some (.item .directory)) :
    t.get? place = some (.item .directory) := by
  cases n with
  | link target => exact absurd hn (ht _ _)
  | item i =>
    cases i with
    | directory => exact hn
    | file c =>
      obtain ⟨c', hc'⟩ := h.file place c hn
      rw [HasFile, hd] at hc'
      cases hc'

/-- A way down to something that was there before was open before. -/
theorem Leads.before {t u : FileTree} (hg : Grows t u) (ht : t.Unlinked) (hr : t.Rooted)
    {links rest : Nat} {base place : Names} {names : List String}
    (h : u.Leads links base names rest place) (hn : ∀ n ∈ names, n ≠ "..") {node : Node}
    (hnode : t.get? place = some node) : t.Leads links base names rest place := by
  have hu := hg.unlinked ht
  -- all that is passed on the way down was there
  have hthere : ∀ {base' : Names}, base' <+: place → ∃ n, t.get? base' = some n := by
    rintro base' ⟨more, rfl⟩
    by_cases hmore : more = []
    · rw [hmore, List.append_nil] at hnode
      exact ⟨node, hnode⟩
    · exact ⟨_, hr.directory_of_prefix hmore hnode⟩
  have hdir : ∀ {base' : Names}, base' <+: place → u.get? base' = some (.item .directory) →
      t.get? base' = some (.item .directory) := by
    intro base' hpre hd
    obtain ⟨n, hn⟩ := hthere hpre
    exact hg.directory_before ht hn hd
  induction h with
  | done => exact .done
  | here hd hrest ih =>
    have hn' := fun n hm => hn n (List.mem_cons_of_mem _ hm)
    exact .here (hdir (hrest.prefix_of_down hu hn') hd) (ih hn' hnode hthere hdir)
  | up => exact absurd rfl (hn ".." List.mem_cons_self)
  | @item links rest base place n ns i he hi hrest ih =>
    have hn' := fun n hm => hn n (List.mem_cons_of_mem _ hm)
    have hpre := hrest.prefix_of_down hu hn'
    obtain ⟨node', hnode'⟩ := hthere hpre
    cases node' with
    | link target => exact absurd hnode' (ht _ _)
    | item i' =>
      refine .item { he with directory := ?_ } hnode' (ih hn' hnode hthere hdir)
      exact hdir ((List.prefix_append _ _).trans hpre) he.directory
  | link _ hl _ _ => exact absurd hl (hu _ _)

/-- A path below a directory leads to what was there before as it did then. -/
theorem resolve_below_before {t u : FileTree} (hg : Grows t u) (ht : t.Unlinked) (hr : t.Rooted)
    {start : Path} {dir : Names}
    (hl : t.Leads linkLimit [] (Route.of start.text).names linkLimit dir) {names : Names}
    (hnames : ∀ n ∈ names, IsName n) {place : Names} {node : Node}
    (h : u.resolve (start.below names) = .ok place) (hnode : t.get? place = some node) :
    t.resolve (start.below names) = .ok place := by
  obtain ⟨r, rest, hroute, hu⟩ := resolve_eq_ok_iff.mp h
  refine resolve_eq_ok_iff.mpr ⟨r, rest, hroute, ?_⟩
  obtain ⟨more, hsteps, hmore⟩ : ∃ more,
      r.steps = (Route.of start.text).names ++ (names ++ more) ∧ ∀ n ∈ more, n = "." := by
    rw [routeOf_eq_ok hroute, Route.steps, names_below hnames]
    split
    · exact ⟨["."], by simp, by simp⟩
    · exact ⟨[], by simp, by simp⟩
  rw [hsteps] at hu ⊢
  obtain ⟨mid, dir', hfront, hback⟩ := hu.split rfl
  have hmid := hfront.rest_eq (hg.unlinked ht)
  subst hmid
  have hsame := hfront.unique (hl.grows hg)
  subst hsame
  refine hl.append (hback.before hg ht hr (fun n hn => ?_) hnode)
  rcases List.mem_append.mp hn with hn | hn
  · exact (hnames n hn).not_up
  · rw [hmore n hn]
    decide

end FileTree
end Disk

namespace Project

open Disk (Path Names FileTree Content IsName)
open Disk.FileTree (Grows)
open Output (Changes)

/-! ### The model files that are found -/

section FoundFiles

variable {t u : FileTree} {dir : Path} {names : Names}

/-- The model files below a directory, by what their paths lead to. -/
theorem mem_foundFiles_iff (ht : t.Unlinked) (hp : t.Proper) (hr : t.Rooted)
    (hdir : t.isDirectory dir = true) : names ∈ foundFiles t dir ↔
      names ≠ [] ∧ isModelFile dir names = true ∧ (∀ n ∈ names, IsName n) ∧
      ∃ c, t.resolve (dir.below names) = .ok (dir.place ++ names) ∧
        t.HasFile (dir.place ++ names) c := by
  obtain ⟨place, hresolve, hd⟩ := Disk.FileTree.isDirectory_iff.mp hdir
  have hplace := Disk.FileTree.place_of_resolve ht hresolve
  subst hplace
  rw [foundFiles, List.mem_filter]
  constructor
  · rintro ⟨hfound, hmodel⟩
    have hnames := Disk.FileTree.isName_of_mem_filesBelow hp hfound
    obtain ⟨c, hstatus⟩ := Disk.FileTree.status_of_mem_filesBelow hp hfound
    obtain ⟨place, hpath, hc⟩ := Disk.FileTree.status_eq_ok_iff.mp hstatus
    have hplace := Disk.FileTree.place_of_resolve ht hpath
    rw [Disk.place_below hnames] at hplace
    subst hplace
    refine ⟨?_, hmodel, hnames, c, hpath, hc⟩
    rintro rfl
    rw [List.append_nil, hd] at hc
    cases hc
  · rintro ⟨hne, hmodel, -, c, hpath, hc⟩
    have hholds : t.holds (dir.below names) = true :=
      Disk.FileTree.holds_iff.mpr ⟨_, _, hpath, hc⟩
    have hbelow : t.filesBelow dir = t.walk dir [dir.place] dir.place [] := by
      unfold FileTree.filesBelow
      simp only [hresolve, hd]
    rw [hbelow]
    exact ⟨Disk.FileTree.mem_walk_of_file hp hr hne hc hholds, hmodel⟩

/-- Every model file that is found can be reached, and stands under a name with the ending
of model files. -/
theorem hasFile_of_mem_foundFiles (ht : t.Unlinked) (hp : t.Proper)
    (h : names ∈ foundFiles t dir) : ∃ place c, t.resolve (dir.below names) = .ok place ∧
      t.HasFile place c ∧ ∃ q, place.getLast? = some (q ++ ".json") := by
  obtain ⟨hfound, hmodel⟩ := List.mem_filter.mp h
  obtain ⟨c, hstatus⟩ := Disk.FileTree.status_of_mem_filesBelow hp hfound
  obtain ⟨place, hpath, hc⟩ := Disk.FileTree.status_eq_ok_iff.mp hstatus
  exact ⟨place, c, hpath, hc, place_of_modelFile ht hmodel hpath⟩

/-- **A run adds no model file and takes none away.** -/
theorem foundFiles_of_changes {root : Path} (ht : t.Unlinked) (hp : t.Proper) (hr : t.Rooted)
    (h : Changes root IsStubName t u) (hholds : t.holds dir = true) :
    foundFiles u dir = foundFiles t dir := by
  have hg := h.grows
  have hu := hg.unlinked ht
  have hkept : ∀ {place : Names} {c : Content}, (∃ q, place.getLast? = some (q ++ ".json")) →
      (u.HasFile place c ↔ t.HasFile place c) := by
    rintro place c ⟨q, hq⟩
    refine h.hasFile_iff fun n hlast => ?_
    rw [hq] at hlast
    cases hlast
    exact not_isStubName_json q
  obtain ⟨place, i, hresolve, hi⟩ := Disk.FileTree.holds_iff.mp hholds
  cases i with
  | file content =>
    obtain ⟨content', hc'⟩ := hg.file place content hi
    have hfile : ∀ {v : FileTree} {c : Content}, v.resolve dir = .ok place → v.HasFile place c →
        v.filesBelow dir = [[]] := by
      intro v c hv hc
      rw [FileTree.HasFile] at hc
      simp only [FileTree.filesBelow, hv, hc]
    rw [foundFiles, foundFiles, hfile hresolve hi, hfile (hg.resolve hresolve) hc']
  | directory =>
    have hdir : t.isDirectory dir = true :=
      Disk.FileTree.isDirectory_iff.mpr ⟨place, hresolve, hi⟩
    refine Disk.FileTree.eq_of_mem_iff
      ((Disk.FileTree.pairwise_filesBelow (h.proper hp) dir).filter _)
      ((Disk.FileTree.pairwise_filesBelow hp dir).filter _) fun names => ?_
    rw [mem_foundFiles_iff hu (h.proper hp) (h.rooted hr) (hg.isDirectory hdir),
      mem_foundFiles_iff ht hp hr hdir]
    constructor
    · rintro ⟨hne, hmodel, hnames, c, hpath, hc⟩
      have hc := (hkept (place_of_modelFile hu hmodel hpath)).mp hc
      obtain ⟨dir', hl, -⟩ := Disk.FileTree.leads_of_isDirectory ht hdir
      exact ⟨hne, hmodel, hnames, c,
        Disk.FileTree.resolve_below_before hg ht hr hl hnames hpath hc, hc⟩
    · rintro ⟨hne, hmodel, hnames, c, hpath, hc⟩
      exact ⟨hne, hmodel, hnames, c, hg.resolve hpath,
        (hkept (place_of_modelFile ht hmodel hpath)).mpr hc⟩

end FoundFiles

end Project

end ModelStubs
