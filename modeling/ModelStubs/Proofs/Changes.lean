/-
# The changes that writing makes

However far a run of writes gets, it changes the tree in steps of two kinds
(`Output.Change`): a directory is made where nothing stood, or a file is put where no
directory stands. Either stands in a directory that is there, under a proper name; a
directory lies on the way to the files, and a file lies below the directory that is
written to, which can be reached by then.

What one change keeps, any number of changes keeps. So a tree stays proper and rooted,
what comes of the changes is confined, and only files with the names of those written
are new or changed.

Key definitions: `Disk.FileTree.Rooted`, `Output.Reached`, `Output.Change`,
`Output.Changes`, `Output.Performs`.
Key theorems: `Output.Changes.confined`, `Output.Changes.proper`, `Output.Changes.rooted`,
`Output.Changes.hasFile_iff`, `Output.performs_writeFiles`.
-/
import Mathlib.Logic.Relation
import ModelStubs.Proofs.Confinement
import ModelStubs.Proofs.Walks

namespace ModelStubs

namespace Disk
namespace FileTree

/-- Everything stands in a directory. -/
def Rooted (t : FileTree) : Prop :=
  ∀ e ∈ t.entries, ∃ dir name, e.1 = dir ++ [name] ∧ t.get? dir = some (.item .directory)

/-- A tree is rooted if every entry stands in a directory. -/
theorem rooted_of_entries {t : FileTree}
    (h : ∀ e ∈ t.entries, e.1 ≠ [] ∧ t.get? e.1.dropLast = some (.item .directory)) :
    t.Rooted := by
  intro e he
  obtain ⟨hne, hd⟩ := h e he
  exact ⟨e.1.dropLast, e.1.getLast hne, (List.dropLast_append_getLast hne).symm, hd⟩

theorem Rooted.directory {t : FileTree} (h : t.Rooted) {dir : Names} {name : String} {n : Node}
    (hn : t.get? (dir ++ [name]) = some n) : t.get? dir = some (.item .directory) := by
  obtain ⟨dir', name', he, hdir⟩ := h _ (mem_entries_of_get? (by simp) hn)
  have hsame : dir = dir' := (List.append_inj' he rfl).1
  rw [hsame]
  exact hdir

/-- What leads down to a place is there. -/
theorem Rooted.directory_of_prefix {t : FileTree} (h : t.Rooted) {dir : Names} :
    ∀ {rest : Names} {n : Node}, rest ≠ [] → t.get? (dir ++ rest) = some n →
    t.get? dir = some (.item .directory) := by
  intro rest
  induction rest using List.reverseRecOn with
  | nil => exact fun hne _ => absurd rfl hne
  | append_singleton rest name ih =>
    intro n _ hn
    rw [← List.append_assoc] at hn
    have hdir := h.directory hn
    by_cases hrest : rest = []
    · rw [hrest, List.append_nil] at hdir
      exact hdir
    · exact ih hrest hdir

/-- The places of the entries with one node put. -/
theorem mem_putEntry {place : Names} {n : Node} {e : Names × Node} :
    ∀ {es : List (Names × Node)}, e ∈ putEntry place n es → e.1 = place ∨ e ∈ es
  | [], h => by
    rw [putEntry, List.mem_singleton] at h
    exact .inl (by rw [h])
  | (q, m) :: es, h => by
    unfold putEntry at h
    split at h
    · next hq =>
      rcases List.mem_cons.mp h with rfl | h
      · exact .inl hq
      · exact .inr (List.mem_cons_of_mem _ h)
    · rcases List.mem_cons.mp h with rfl | h
      · exact .inr List.mem_cons_self
      · exact (mem_putEntry h).imp id (List.mem_cons_of_mem _)

/-- Putting a node leaves the list of places as it is, or adds the place at its end. -/
theorem places_putEntry (place : Names) (n : Node) : ∀ es : List (Names × Node),
    (putEntry place n es).map Prod.fst =
      if place ∈ es.map Prod.fst then es.map Prod.fst else es.map Prod.fst ++ [place]
  | [] => by simp [putEntry]
  | (q, m) :: es => by
    have ih := places_putEntry place n es
    unfold putEntry
    by_cases hq : q = place
    · simp [hq]
    · have hq' : ¬ place = q := fun e => hq e.symm
      rw [if_neg hq, List.map_cons, ih]
      by_cases hmem : place ∈ es.map Prod.fst
      · rw [if_pos hmem, if_pos (by simpa [hq'] using hmem)]
        rfl
      · rw [if_neg hmem, if_neg (by simpa [hq'] using hmem)]
        rfl

/-- The names on the way to what stands in a proper tree are names. -/
theorem Proper.isName_of_get? {t : FileTree} (h : t.Proper) {place : Names} {n : Node}
    (hn : t.get? place = some n) : ∀ m ∈ place, IsName m := by
  intro m hm
  exact h.names _ (mem_entries_of_get? (List.ne_nil_of_mem hm) hn) m hm

theorem Proper.put_child {t : FileTree} (h : t.Proper) {dir : Names} {name : String}
    (hdir : t.get? dir = some (.item .directory)) (hname : IsName name) (n : Node) :
    (t.put (dir ++ [name]) n).Proper := by
  constructor
  · show ((putEntry (dir ++ [name]) n t.entries).map Prod.fst).Nodup
    rw [places_putEntry]
    split
    · exact h.distinct
    · next hnew => exact List.Nodup.append h.distinct (by simp) (by simpa using hnew)
  · intro e he m hm
    rcases mem_putEntry he with hplace | he
    · rw [hplace] at hm
      rcases List.mem_append.mp hm with hm | hm
      · exact h.isName_of_get? hdir m hm
      · rw [List.mem_singleton.mp hm]
        exact hname
    · exact h.names e he m hm

/-- A tree stays rooted if something is put in a directory where no directory stood. -/
theorem Rooted.put_child {t : FileTree} (h : t.Rooted) {dir : Names} {name : String}
    (hdir : t.get? dir = some (.item .directory))
    (hfree : t.get? (dir ++ [name]) ≠ some (.item .directory)) (n : Node) :
    (t.put (dir ++ [name]) n).Rooted := by
  -- a directory stays: what is put is not put in its place
  have hkept : ∀ d, t.get? d = some (.item .directory) →
      (t.put (dir ++ [name]) n).get? d = some (.item .directory) := by
    intro d hd
    have hne : d ≠ dir ++ [name] := by
      rintro rfl
      exact hfree hd
    rw [get?_put_of_ne hne]
    exact hd
  intro e he
  rcases mem_putEntry he with hplace | he
  · exact ⟨dir, name, hplace, hkept dir hdir⟩
  · obtain ⟨d, m, hem, hd⟩ := h e he
    exact ⟨d, m, hem, hkept d hd⟩

/-- The names of a route are names, but for the two that stand for directories. -/
theorem Route.isName_of_mem {text n : String} (h : n ∈ (Route.of text).names)
    (hhere : n ≠ ".") (hup : n ≠ "..") : IsName n := by
  rw [Route.names_of] at h
  obtain ⟨part, hpart, rfl⟩ := List.mem_map.mp h
  obtain ⟨hpiece, hne⟩ := List.mem_filter.mp hpart
  refine ⟨?_, ?_, hhere, hup⟩
  · intro e
    have hnil : part = [] := by simpa using congrArg String.toList e
    rw [hnil] at hne
    cases hne
  · rw [String.toList_ofList]
    exact Text.not_mem_of_mem_pieces '/' _ part hpiece

/-- Where a new directory is put: under a name, in a directory that is there. -/
theorem parent_of_newDirectory {t : FileTree} {text : String} {place : Names}
    (h : t.newDirectory (Route.of text) = .ok place) : ∃ dir name, place = dir ++ [name] ∧
      IsName name ∧ t.get? dir = some (.item .directory) ∧ t.get? (dir ++ [name]) = none := by
  unfold newDirectory at h
  split at h
  · cases h
  · next last hlast =>
    split at h
    · cases h
    · next dir last' rest hparent =>
      obtain ⟨-, hdir, rfl⟩ := followParent_eq_ok hparent
      split at h
      · cases h
      · next hspecial =>
        obtain ⟨hhere, hup⟩ := not_or.mp hspecial
        split at h
        · cases h
        · split at h
          · next hnone =>
            cases h
            exact ⟨dir, last', rfl, Route.isName_of_mem (List.mem_of_getLast? hlast) hhere hup,
              hdir, hnone⟩
          · cases h

/-- Where a file is put: under a name, in a directory that is there. -/
theorem Writable.parent {t : FileTree} {p : Path} {place : Names} (h : t.Writable p place) :
    ∃ dir name, place = dir ++ [name] ∧ IsName name ∧ t.get? dir = some (.item .directory) := by
  cases h with
  | @intro r init dir name hr _ hnames _ he _ =>
    have hmem : name ∈ (Route.of p.text).names := by
      rw [← routeOf_eq_ok hr, hnames]
      simp
    exact ⟨dir, name, rfl, Route.isName_of_mem hmem he.not_here he.not_up, he.directory⟩

end FileTree
end Disk

namespace Output

open Disk (Path FileTree Names Content IsName)
open Disk.FileTree (Grows NewDirectories Route Leads partNames)

/-- The path leads to a directory. The empty path leads nowhere by itself, and stands for
the directory that the paths below it start from. -/
def Reached (root : Path) (t : FileTree) : Prop := root.text = "" ∨ t.isDirectory root = true

/-- A change that is made to the tree `t` on the way to files below the directory `root`
whose names satisfy `named`. -/
inductive Change (root : Path) (named : String → Prop) (t : FileTree) : FileTree → Prop
  | directory {dir : Names} {name : String} : IsName name →
      t.get? dir = some (.item .directory) → t.get? (dir ++ [name]) = none →
      MayMake root (dir ++ [name]) →
      Change root named t (t.put (dir ++ [name]) (.item .directory))
  | file {dir : Names} {name text : String} : IsName name → named name →
      t.get? dir = some (.item .directory) →
      (t.get? (dir ++ [name]) = none ∨ ∃ c, t.HasFile (dir ++ [name]) c) →
      Below root.place (dir ++ [name]) → Reached root t →
      Change root named t (t.put (dir ++ [name]) (.item (.file (.text text))))

/-- Any number of changes. -/
abbrev Changes (root : Path) (named : String → Prop) : FileTree → FileTree → Prop :=
  Relation.ReflTransGen (Change root named)

/-! ### What a change keeps -/

section Kept

variable {root : Path} {named : String → Prop} {t u : FileTree}

theorem Reached.grows (h : Reached root t) (hg : Grows t u) : Reached root u :=
  h.imp id hg.isDirectory

theorem free_ne_directory {place : Names}
    (h : t.get? place = none ∨ ∃ c, t.HasFile place c) :
    t.get? place ≠ some (.item .directory) := by
  intro hd
  rcases h with hnone | ⟨c, hc⟩
  · rw [hnone] at hd
    cases hd
  · rw [FileTree.HasFile, hd] at hc
    cases hc

theorem Change.confined (h : Change root named t u) : Confined root t u := by
  cases h with
  | @directory dir name _ _ hnone hmay =>
    refine .of_newDirectories fun place => ?_
    by_cases hplace : place = dir ++ [name]
    · rw [hplace]
      exact .inr ⟨hnone, Disk.FileTree.get?_put_self (by simp) _, hmay⟩
    · exact .inl (Disk.FileTree.get?_put_of_ne hplace _)
  | file _ _ _ hfree hbelow _ => exact .put hbelow hfree

theorem Change.proper (h : Change root named t u) (hp : t.Proper) : u.Proper := by
  cases h with
  | directory hname hdir _ _ => exact hp.put_child hdir hname _
  | file hname _ hdir _ _ _ => exact hp.put_child hdir hname _

theorem Change.rooted (h : Change root named t u) (hr : t.Rooted) : u.Rooted := by
  cases h with
  | directory _ hdir hnone _ => exact hr.put_child hdir (by simp [hnone]) _
  | file _ _ hdir hfree _ _ => exact hr.put_child hdir (free_ne_directory hfree) _

/-- Only files with the names of those written are new or changed. -/
theorem Change.hasFile_iff (h : Change root named t u) {place : Names} {content : Content}
    (hname : ∀ n, place.getLast? = some n → ¬ named n) :
    u.HasFile place content ↔ t.HasFile place content := by
  cases h with
  | @directory dir name _ _ hnone _ =>
    exact (Disk.FileTree.moreDirectories_put (by simp) hnone).hasFile_iff
  | @file dir name text _ hnamed _ _ _ _ =>
    have hne : place ≠ dir ++ [name] := by
      rintro rfl
      exact hname name (by simp) hnamed
    rw [FileTree.HasFile, Disk.FileTree.get?_put_of_ne hne]
    rfl

/-- If a file is new or changed then the directory was reached. -/
theorem Change.reached (h : Change root named t u) {place : Names} {content : Content}
    (hu : u.HasFile place content) (ht : ¬ t.HasFile place content) : Reached root u := by
  have hg := h.confined.grows
  cases h with
  | @directory dir name _ _ hnone _ =>
    exact absurd ((Disk.FileTree.moreDirectories_put (by simp) hnone).hasFile_iff.mp hu) ht
  | file _ _ _ _ _ hreached => exact hreached.grows hg

theorem Changes.confined (h : Changes root named t u) : Confined root t u := by
  induction h with
  | refl => exact .refl t
  | tail _ hstep ih => exact ih.trans hstep.confined

theorem Changes.grows (h : Changes root named t u) : Grows t u := h.confined.grows

theorem Changes.proper (h : Changes root named t u) (hp : t.Proper) : u.Proper := by
  induction h with
  | refl => exact hp
  | tail _ hstep ih => exact hstep.proper ih

theorem Changes.rooted (h : Changes root named t u) (hr : t.Rooted) : u.Rooted := by
  induction h with
  | refl => exact hr
  | tail _ hstep ih => exact hstep.rooted ih

theorem Changes.hasFile_iff (h : Changes root named t u) {place : Names} {content : Content}
    (hname : ∀ n, place.getLast? = some n → ¬ named n) :
    u.HasFile place content ↔ t.HasFile place content := by
  induction h with
  | refl => exact Iff.rfl
  | tail _ hstep ih => exact (hstep.hasFile_iff hname).trans ih

theorem Changes.reached (h : Changes root named t u) {place : Names} {content : Content}
    (hu : u.HasFile place content) (ht : ¬ t.HasFile place content) : Reached root u := by
  induction h with
  | refl => exact absurd hu ht
  | @tail v w _ hstep ih =>
    by_cases hv : v.HasFile place content
    · exact (ih hv).grows hstep.confined.grows
    · exact hstep.reached hu hv

end Kept

/-! ### Requests that make changes of this kind only -/

/-- Whatever its answer, the request only makes changes of the given kind to a tree without
links. -/
def Performs (root : Path) (named : String → Prop) {α : Type} (x : StateM FileTree α) : Prop :=
  ∀ t : FileTree, t.Unlinked → Changes root named t (x.run t).2

section Performs

variable {root : Path} {named : String → Prop}

theorem performs_compositional : Disk.Compositional (Performs root named) where
  pure := fun _ _ _ => .refl
  bind := by
    intro α β x f hx hf t ht
    have hfirst := hx t ht
    exact hfirst.trans (hf (x.run t).1 (x.run t).2 (hfirst.grows.unlinked ht))

theorem performs_makeDirectory {p : Path} (hp : MayMake root p.place) :
    Performs root named (Disk.Access.makeDirectory (m := StateM FileTree) p) := by
  intro t ht
  show Changes root named t (t.makeDirectory p).2
  unfold FileTree.makeDirectory
  split
  · exact .refl
  · next r hr =>
    have hroute := Disk.FileTree.routeOf_eq_ok hr
    subst hroute
    split
    · exact .refl
    · next place hn =>
      have hplace := Disk.FileTree.place_of_newDirectory ht hn
      obtain ⟨dir, name, rfl, hname, hdir, hnone⟩ := Disk.FileTree.parent_of_newDirectory hn
      rw [← hplace] at hp
      exact .single (.directory hname hdir hnone hp)

theorem performs_makeDirectories {ps : List Path} (h : ∀ p ∈ ps, MayMake root p.place) :
    Performs root named (Disk.makeDirectories (m := StateM FileTree) ps) :=
  performs_compositional.makeDirectories (fun p hp => performs_makeDirectory (h p hp))
    fun _ _ _ _ => .refl

/-- Where a file below the directory can be written, the directory is reached. -/
theorem reached_of_writable {t : FileTree} {parts : List (List Char)}
    (h : PlainParts parts) {place : Names} (hw : t.Writable (root.join (pathOf parts)) place) :
    Reached root t := by
  by_cases hne : root.text = ""
  · exact .inl hne
  refine .inr ?_
  cases hw with
  | @intro r init dir last hr _ hnames hl he _ =>
    obtain ⟨s, hs⟩ := Disk.FileTree.join_text hne (isAbsolute_pathOf h)
    have hroot := Disk.FileTree.routeOf_of_append hs hne hr
    obtain ⟨ns, n, hparts⟩ : ∃ ns n, partNames parts = ns ++ [n] := by
      refine ⟨_, _, (List.dropLast_append_getLast ?_).symm⟩
      simpa [partNames] using h.1
    have hinit : init = (Route.of root.text).names ++ ns := by
      rw [Disk.FileTree.routeOf_eq_ok hr, Disk.FileTree.route_join root h, hparts,
        ← List.append_assoc] at hnames
      exact (List.append_inj' hnames rfl).1.symm
    obtain ⟨mid, base, hbase, hrest⟩ := hl.split hinit
    have hdir : t.get? base = some (.item .directory) := by
      cases ns with
      | nil =>
        cases hrest
        exact he.directory
      | cons m ms => exact hrest.start.1
    have hsteps : t.Leads Disk.FileTree.linkLimit [] (Route.of root.text).steps mid base := by
      unfold Route.steps
      split
      · exact hbase.append (.here hdir .done)
      · exact hbase
    exact Disk.FileTree.isDirectory_iff.mpr
      ⟨base, Disk.FileTree.resolve_eq_ok_iff.mpr ⟨_, mid, hroot, hsteps⟩, hdir⟩

/-- The path of each call is made of the parts of a place below a directory, and the last
of them satisfies `named`. -/
def NamedCalls (named : String → Prop) (calls : List Call) : Prop :=
  ∀ c ∈ calls, ∃ parts, PlainParts parts ∧ c.1 = pathOf parts ∧
    ∀ n, (partNames parts).getLast? = some n → named n

/-- A call to a disk sink makes changes of the kind only, whether or not it succeeds. -/
theorem changes_call {t : FileTree} (ht : t.Unlinked) {c : Call} {parts : List (List Char)}
    (h : PlainParts parts) (hc : c.1 = pathOf parts)
    (hnamed : ∀ n, (partNames parts).getLast? = some n → named n) :
    Changes root named t ((diskSink root).call t c).2 := by
  have habove : ∀ p ∈ (root.join c.1).ancestors.drop 1, MayMake root p.place := by
    intro p hp
    rw [hc] at hp
    exact mayMake_of_mem_ancestors h (List.mem_of_mem_drop hp)
  have hmake : Changes root named t
      ((Disk.makeDirectories (m := StateM FileTree) ((root.join c.1).ancestors.drop 1)).run t).2 :=
    performs_makeDirectories habove t ht
  rw [diskSink_call]
  split
  · next e u hu =>
    rw [hu] at hmake
    exact hmake
  · next u hu =>
    rw [hu] at hmake
    have hunl : u.Unlinked := hmake.grows.unlinked ht
    split
    · next e v hv =>
      rw [Disk.FileTree.writeText_error hv]
      exact hmake
    · next v hv =>
      obtain ⟨place, hw, rfl⟩ := (Disk.FileTree.writeText_eq_ok_iff hunl).mp hv
      have hfree := hw.free
      have hplace : place = root.place ++ partNames parts := by
        rw [hw.place_eq hunl, hc, Path.place_join root h]
      have hbelow : Below root.place place := by
        rw [hw.place_eq hunl, hc]
        exact below_join root h
      rw [hc] at hw
      have hreached : Reached root u := reached_of_writable h hw
      obtain ⟨dir, name, rfl, hname, hdir⟩ := hw.parent
      have hlast : (partNames parts).getLast? = some name := by
        have hne : partNames parts ≠ [] := by simpa [partNames] using h.1
        have hl := congrArg List.getLast? hplace
        rw [List.getLast?_append_of_ne_nil _ hne] at hl
        simpa using hl.symm
      exact hmake.tail (.file hname (hnamed name hlast) hdir hfree hbelow hreached)

/-- The last name of each key satisfies `named`. -/
def NamedFiles (named : String → Prop) (files : GeneratedFiles) : Prop :=
  ∀ key ∈ files.keys, ∀ n, (Route.of key).names.getLast? = some n → named n

theorem NamedFiles.calls {files : GeneratedFiles} (h : NamedFiles named files)
    {calls : List Call} (hc : Calls files.entries calls) : NamedCalls named calls := by
  intro c hcall
  obtain ⟨e, he, hpath, -⟩ := hc.exists_entry hcall
  obtain ⟨hsafe, hpath⟩ := outputPath_eq_ok_iff.mp hpath
  exact ⟨keyParts e.1, plainParts_keyParts hsafe, hpath, h e.1 (List.mem_map_of_mem he)⟩

/-- **Writing files changes the tree in steps of two kinds only**, however far it gets. -/
theorem performs_writeFiles {files : GeneratedFiles} (h : NamedFiles named files) :
    Performs root named (writeFiles (m := StateM FileTree) (diskSink root) files) := by
  unfold writeFiles
  cases hr : resolved files.entries with
  | error f => exact performs_compositional.pure _
  | ok calls =>
    refine performs_compositional.writeAll fun c hc => ?_
    obtain ⟨parts, hparts, hpath, hnamed⟩ := h.calls (resolved_eq_ok_iff.mp hr) c hc
    exact fun t ht => changes_call ht hparts hpath hnamed

end Performs

end Output

end ModelStubs
