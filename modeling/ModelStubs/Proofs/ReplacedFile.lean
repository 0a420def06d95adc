/-
# A file that holds something else

Two trees that differ only in what one file holds (`Disk.FileTree.Alike`) are told apart
by reading that file and by nothing else: following names, making directories and writing
look at where files and directories are, and not at what files hold. So a program that
stays away from reading the file goes the same way in both trees, and they are alike
afterwards (`Disk.FileTree.Overlooks`). A walk finds the same files in both.

Key definitions: `Disk.FileTree.Alike`, `Disk.FileTree.Overlooks`.
Key theorems: `Disk.FileTree.Alike.follow_eq`, `Disk.FileTree.Alike.filesBelow_eq`,
`Disk.FileTree.overlooks_readText`, `Project.overlooks_outcomes`.
-/
import ModelStubs.Proofs.Changes
import ModelStubs.Proofs.LinkedWalks
import ModelStubs.Proofs.LinkedWrites
import ModelStubs.Proofs.Outcomes

namespace ModelStubs

namespace Disk
namespace FileTree

/-- The trees are the same, but that the file at `place` may hold something else. -/
def Alike (place : Names) (t u : FileTree) : Prop :=
  ∀ q, u.get? q = t.get? q ∨ q = place ∧ (∃ c, t.HasFile q c) ∧ ∃ c, u.HasFile q c

variable {place : Names} {t u : FileTree}

namespace Alike

/-- The file is replaced. -/
theorem of_put {c : Content} (h : t.HasFile place c) (c' : Content) :
    Alike place t (t.put place (.item (.file c'))) := by
  have hne : place ≠ [] := by
    rintro rfl
    cases h
  intro q
  by_cases hq : q = place
  · subst hq
    exact .inr ⟨rfl, ⟨c, h⟩, c', get?_put_self hne _⟩
  · exact .inl (get?_put_of_ne hq _)

/-- The same change to both keeps them alike. -/
theorem put (h : Alike place t u) (q : Names) (n : Node) : Alike place (t.put q n) (u.put q n) := by
  intro r
  by_cases hr : r = q
  · subst hr
    cases r with
    | nil => exact .inl rfl
    | cons x xs => exact .inl (by rw [get?_put_self (by simp), get?_put_self (by simp)])
  · rcases h r with e | ⟨rfl, ⟨c, hc⟩, c', hc'⟩
    · exact .inl (by rw [get?_put_of_ne hr, get?_put_of_ne hr, e])
    · exact .inr ⟨rfl, ⟨c, (get?_put_of_ne hr n).trans hc⟩, c', (get?_put_of_ne hr n).trans hc'⟩

/-- A place has the same node in both trees, or two files. -/
theorem get?_cases (h : Alike place t u) (q : Names) : u.get? q = t.get? q ∨
    ∃ c c', t.get? q = some (.item (.file c)) ∧ u.get? q = some (.item (.file c')) := by
  rcases h q with e | ⟨-, ⟨c, hc⟩, c', hc'⟩
  · exact .inl e
  · exact .inr ⟨c, c', hc, hc'⟩

theorem get?_eq_of_ne (h : Alike place t u) {q : Names} (hq : q ≠ place) : u.get? q = t.get? q :=
  (h q).resolve_right fun he => hq he.1

theorem directory_iff (h : Alike place t u) (q : Names) :
    u.get? q = some (.item .directory) ↔ t.get? q = some (.item .directory) := by
  rcases h.get?_cases q with e | ⟨c, c', hc, hc'⟩
  · rw [e]
  · simp [hc, hc']

/-- Names lead to the same place, or fail alike. -/
theorem follow_eq (h : Alike place t u) (links : Nat) (base : Names) (names : List String) :
    u.follow links base names = t.follow links base names := by
  have hdir := h.directory_iff
  fun_induction FileTree.follow t links base names with
  | case1 links base => rw [follow]
  | case2 links base n ns hd => rw [follow, if_pos (mt (hdir base).mp hd)]
  | case3 links base ns hd ih =>
    rw [follow, if_neg (by simpa [hdir] using hd), if_pos rfl, ih]
  | case4 links base ns hd _ ih =>
    rw [follow, if_neg (by simpa [hdir] using hd), if_neg (by decide), if_pos rfl, ih]
  | case5 links base n ns hd h1 h2 hlong =>
    rw [follow, if_neg (by simpa [hdir] using hd), if_neg h1, if_neg h2, if_pos hlong]
  | case6 links base n ns hd h1 h2 hlong hnone =>
    rw [follow, if_neg (by simpa [hdir] using hd), if_neg h1, if_neg h2, if_neg hlong]
    rcases h.get?_cases (base ++ [n]) with e | ⟨c, c', hc, -⟩
    · simp only [e, hnone]
    · cases hnone.symm.trans hc
  | case7 base n ns hd h1 h2 hlong target hlink =>
    rw [follow, if_neg (by simpa [hdir] using hd), if_neg h1, if_neg h2, if_neg hlong]
    rcases h.get?_cases (base ++ [n]) with e | ⟨c, c', hc, -⟩
    · simp only [e, hlink]
    · cases hlink.symm.trans hc
  | case8 base n ns hd h1 h2 hlong target hlink links ih =>
    rw [follow, if_neg (by simpa [hdir] using hd), if_neg h1, if_neg h2, if_neg hlong]
    rcases h.get?_cases (base ++ [n]) with e | ⟨c, c', hc, -⟩
    · simp only [e, hlink, ih]
    · cases hlink.symm.trans hc
  | case9 links base n ns hd h1 h2 hlong node hitem hnode ih =>
    rw [follow, if_neg (by simpa [hdir] using hd), if_neg h1, if_neg h2, if_neg hlong]
    rcases h.get?_cases (base ++ [n]) with e | ⟨c, c', hc, hc'⟩
    · cases node with
      | item i => simp only [e, hnode, ih]
      | link target => exact absurd rfl (hitem target)
    · simp only [hc', ih]

/-! ### What is answered alike -/

theorem resolve_eq (h : Alike place t u) (p : Path) : u.resolve p = t.resolve p := by
  unfold resolve
  cases routeOf p with
  | error e => rfl
  | ok r => simp only [h.follow_eq]

theorem holds_eq (h : Alike place t u) (p : Path) : u.holds p = t.holds p := by
  unfold holds status
  rw [h.resolve_eq]
  cases t.resolve p with
  | error e => rfl
  | ok q =>
    rcases h.get?_cases q with e | ⟨c, c', hc, hc'⟩
    · simp only [e]
    · simp only [hc, hc']
      rfl

theorem isDirectory_eq (h : Alike place t u) (p : Path) : u.isDirectory p = t.isDirectory p := by
  rw [Bool.eq_iff_iff, isDirectory_iff, isDirectory_iff]
  simp only [h.resolve_eq, h.directory_iff]

/-- A file elsewhere is read alike. -/
theorem readText_eq (h : Alike place t u) {p : Path} (hp : t.resolve p ≠ .ok place) :
    u.readText p = t.readText p := by
  unfold readText status
  rw [h.resolve_eq]
  cases hr : t.resolve p with
  | error e => rfl
  | ok q =>
    have hq : q ≠ place := by
      rintro rfl
      exact hp hr
    simp only [h.get?_eq_of_ne hq]

theorem followParent_eq (h : Alike place t u) (links : Nat) (base : Names) (names : List String)
    (last : String) :
    u.followParent links base names last = t.followParent links base names last := by
  unfold followParent
  rw [h.follow_eq]
  cases t.follow links base names with
  | error e => rfl
  | ok x => simp only [ne_eq, h.directory_iff]

/-- A directory is made at the same place, or fails alike. -/
theorem newDirectory_eq (h : Alike place t u) (r : Route) :
    u.newDirectory r = t.newDirectory r := by
  unfold newDirectory
  cases r.names.getLast? with
  | none => rfl
  | some last =>
    simp only [h.followParent_eq]
    cases t.followParent linkLimit [] r.names.dropLast last with
    | error e => rfl
    | ok x =>
      obtain ⟨dir, last', rest⟩ := x
      rcases h.get?_cases (dir ++ [last']) with e | ⟨c, c', hc, hc'⟩
      · simp only [e]
      · simp only [hc, hc']

/-- A file is written at the same place, or fails alike. -/
theorem fileTarget_eq (h : Alike place t u) (hops links : Nat) (base : Names) (r : Route) :
    u.fileTarget links base r hops = t.fileTarget links base r hops := by
  induction hops generalizing links base r with
  | zero => rfl
  | succ hops ih =>
    unfold fileTarget
    cases r.names.getLast? with
    | none => rfl
    | some last =>
      simp only [h.followParent_eq]
      cases t.followParent links base r.names.dropLast last with
      | error e => rfl
      | ok x =>
        obtain ⟨dir, last', rest⟩ := x
        rcases h.get?_cases (dir ++ [last']) with e | ⟨c, c', hc, hc'⟩
        · simp only [e, ih]
        · simp only [hc, hc']

/-! ### What a walk finds -/

/-- The entries of a directory have the same names and lead a walk alike. -/
theorem children_eq (h : Alike place t u) (ht : t.Proper) (hu : u.Proper) (dir : Names) :
    u.children dir =
      (t.children dir).map fun x => (x.1, (u.get? (dir ++ [x.1])).getD x.2) := by
  have hsome : ∀ q n, t.get? q = some n → ∃ n', u.get? q = some n' := by
    intro q n hn
    rcases h.get?_cases q with e | ⟨c, c', -, hc'⟩
    · exact ⟨n, e.trans hn⟩
    · exact ⟨_, hc'⟩
  have hback : ∀ q n, u.get? q = some n → ∃ n', t.get? q = some n' := by
    intro q n hn
    rcases h.get?_cases q with e | ⟨c, c', hc, -⟩
    · exact ⟨n, e.symm.trans hn⟩
    · exact ⟨_, hc⟩
  have hmem : ∀ x, x ∈ u.children dir ↔
      x ∈ (t.children dir).map fun x => (x.1, (u.get? (dir ++ [x.1])).getD x.2) := by
    intro x
    rw [hu.mem_children, List.mem_map]
    constructor
    · intro hx
      obtain ⟨n, hn⟩ := hback _ _ hx
      exact ⟨(x.1, n), ht.mem_children.mpr hn, by rw [hx]; rfl⟩
    · rintro ⟨y, hy, rfl⟩
      obtain ⟨n', hn'⟩ := hsome _ _ (ht.mem_children.mp hy)
      simp [hn']
  have hsorted : ((t.children dir).map fun x =>
      (x.1, (u.get? (dir ++ [x.1])).getD x.2)).Pairwise fun x y => x.1 < y.1 :=
    List.pairwise_map.mpr (pairwise_children ht dir)
  have hnodup : ((t.children dir).map fun x =>
      (x.1, (u.get? (dir ++ [x.1])).getD x.2)).Nodup := by
    refine hsorted.imp fun {x y} hlt => ?_
    rintro rfl
    exact String.lt_irrefl _ hlt
  have hperm := (List.perm_ext_iff_of_nodup (nodup_children hu dir) hnodup).mpr hmem
  exact hperm.eq_of_pairwise (fun x y _ _ hxy hyx => absurd hyx (String.lt_asymm hxy))
    (pairwise_children hu dir) hsorted

theorem linkLead_eq (h : Alike place t u) (inside : List Names) (path : Path) :
    u.linkLead inside path = t.linkLead inside path := by
  unfold linkLead
  rw [h.resolve_eq]
  cases t.resolve path with
  | error e => rfl
  | ok target =>
    rcases h.get?_cases target with e | ⟨c, c', hc, hc'⟩
    · simp only [e]
    · simp only [hc, hc']

/-- An entry gives a walk what it gives in the other tree. -/
theorem leadOf_eq (h : Alike place t u) (ht : t.Proper) (start : Path) (inside : List Names)
    {dir : Names} (shown : Names) {x : String × Node} (hx : x ∈ t.children dir) :
    u.leadOf start inside dir shown (x.1, (u.get? (dir ++ [x.1])).getD x.2) =
      t.leadOf start inside dir shown x := by
  have hnode := ht.mem_children.mp hx
  unfold leadOf
  rcases h.get?_cases (dir ++ [x.1]) with e | ⟨c, c', hc, hc'⟩
  · rw [e, hnode]
    simp only [Option.getD_some, h.holds_eq, h.linkLead_eq]
  · rw [hnode] at hc
    rw [hc', Option.some.inj hc]
    simp only [Option.getD_some, h.holds_eq]

theorem walk_eq (h : Alike place t u) (ht : t.Proper) (hu : u.Proper) (start : Path)
    (inside : List Names) (dir shown : Names) :
    u.walk start inside dir shown = t.walk start inside dir shown := by
  induction inside, dir, shown using walk_induction t start with
  | h inside dir shown ih =>
    rw [walk_eq_under, walk_eq_under, h.children_eq ht hu, List.flatMap_map]
    refine List.flatMap_congr fun x hx => ?_
    unfold under
    rw [h.leadOf_eq ht start inside shown hx]
    cases hlead : t.leadOf start inside dir shown x with
    | nothing => rfl
    | file => rfl
    | directory p => exact ih x hx p hlead

/-- **A walk does not look at what files hold.** -/
theorem filesBelow_eq (h : Alike place t u) (ht : t.Proper) (hu : u.Proper) (p : Path) :
    u.filesBelow p = t.filesBelow p := by
  unfold filesBelow
  rw [h.resolve_eq]
  cases t.resolve p with
  | error e => rfl
  | ok q =>
    rcases h.get?_cases q with e | ⟨c, c', hc, hc'⟩
    · simp only [e, h.walk_eq ht hu]
    · simp only [hc, hc']

end Alike

/-- A tree stays proper when a file is replaced. -/
theorem Proper.put_file {c : Content} (ht : t.Proper) (h : t.HasFile place c) (n : Node) :
    (t.put place n).Proper := by
  have hne : place ≠ [] := by
    rintro rfl
    cases h
  have hmem : place ∈ t.entries.map Prod.fst := List.mem_map_of_mem (mem_entries_of_get? hne h)
  have hplaces : (t.put place n).entries.map Prod.fst = t.entries.map Prod.fst := by
    show (putEntry place n t.entries).map Prod.fst = _
    rw [places_putEntry, if_pos hmem]
  refine ⟨hplaces ▸ ht.distinct, fun e he => ?_⟩
  obtain ⟨e', he', hsame⟩ := List.mem_map.mp (hplaces ▸ List.mem_map_of_mem he)
  exact hsame ▸ ht.names e' he'

/-! ### Requests that do not read the file -/

/-- On trees without links that are alike the request has one answer, and the trees are
alike afterwards. -/
def Overlooks (place : Names) {α : Type} (x : StateM FileTree α) : Prop :=
  ∀ t u, t.Unlinked → Alike place t u →
    (x.run u).1 = (x.run t).1 ∧ (x.run t).2.Unlinked ∧ Alike place (x.run t).2 (x.run u).2

theorem overlooks_compositional : Compositional (Overlooks place) where
  pure := fun _ _ _ ht h => ⟨rfl, ht, h⟩
  bind := by
    intro α β x f hx hf t u ht h
    obtain ⟨hanswer, hunl, halike⟩ := hx t u ht h
    have hrest := hf (x.run t).1 (x.run t).2 (x.run u).2 hunl halike
    have hu : (x >>= f).run u = (f (x.run t).1).run (x.run u).2 := by
      rw [← hanswer]
      rfl
    rw [hu]
    exact hrest

theorem overlooks_isDirectory (p : Path) :
    Overlooks place (Access.isDirectory (m := StateM FileTree) p) :=
  fun _ _ ht h => ⟨h.isDirectory_eq p, ht, h⟩

/-- A path that spells another place does not lead to the file. -/
theorem overlooks_readText {p : Path} (hp : p.place ≠ place) :
    Overlooks place (Access.readText (m := StateM FileTree) p) :=
  fun _ _ ht h => ⟨h.readText_eq fun hr => hp (place_of_resolve ht hr).symm, ht, h⟩

theorem overlooks_makeDirectory (p : Path) :
    Overlooks place (Access.makeDirectory (m := StateM FileTree) p) := by
  intro t u ht h
  show (u.makeDirectory p).1 = (t.makeDirectory p).1 ∧ (t.makeDirectory p).2.Unlinked ∧
    Alike place (t.makeDirectory p).2 (u.makeDirectory p).2
  have hunl : (t.makeDirectory p).2.Unlinked :=
    (moreDirectories_makeDirectory rfl).grows.unlinked ht
  refine ⟨?_, hunl, ?_⟩
  · unfold makeDirectory
    cases routeOf p with
    | error e => rfl
    | ok r =>
      simp only [h.newDirectory_eq]
      cases t.newDirectory r with
      | error e => rfl
      | ok q => rfl
  · unfold makeDirectory
    cases routeOf p with
    | error e => exact h
    | ok r =>
      simp only [h.newDirectory_eq]
      cases t.newDirectory r with
      | error e => exact h
      | ok q => exact h.put q _

theorem overlooks_writeText (p : Path) (s : String) :
    Overlooks place (Access.writeText (m := StateM FileTree) p s) := by
  intro t u ht h
  show (u.writeText p s).1 = (t.writeText p s).1 ∧ (t.writeText p s).2.Unlinked ∧
    Alike place (t.writeText p s).2 (u.writeText p s).2
  have hunl : (t.writeText p s).2.Unlinked := by
    cases hw : t.writeText p s with
    | mk result v =>
      cases result with
      | ok x =>
        obtain ⟨q, hstored⟩ := stored_of_written hw
        exact hstored.grows.unlinked ht
      | error e =>
        rw [writeText_error hw]
        exact ht
  refine ⟨?_, hunl, ?_⟩
  · unfold writeText
    cases routeOf p with
    | error e => rfl
    | ok r =>
      simp only [h.fileTarget_eq]
      cases t.fileTarget linkLimit [] r (linkLimit + 1) with
      | error e => rfl
      | ok q => rfl
  · unfold writeText
    cases routeOf p with
    | error e => exact h
    | ok r =>
      simp only [h.fileTarget_eq]
      cases t.fileTarget linkLimit [] r (linkLimit + 1) with
      | error e => exact h
      | ok q => exact h.put q _

theorem overlooks_makeDirectories (ps : List Path) :
    Overlooks place (makeDirectories (m := StateM FileTree) ps) :=
  overlooks_compositional.makeDirectories (fun p _ => overlooks_makeDirectory p)
    fun p _ => overlooks_isDirectory p

end FileTree
end Disk

namespace Output

open Disk (Path FileTree Names)
open Disk.FileTree (Overlooks overlooks_compositional)

/-- Writing files never reads one. -/
theorem overlooks_writeFiles (place : Names) (root : Path) (files : GeneratedFiles) :
    Overlooks place (writeFiles (m := StateM FileTree) (diskSink root) files) := by
  unfold writeFiles
  cases resolved files.entries with
  | error f => exact overlooks_compositional.pure _
  | ok calls =>
    refine overlooks_compositional.writeAll fun c _ => ?_
    refine overlooks_compositional.bind (Disk.FileTree.overlooks_makeDirectories _)
      fun result => ?_
    split
    · exact overlooks_compositional.pure _
    · refine overlooks_compositional.bind (Disk.FileTree.overlooks_writeText _ _) fun result => ?_
      split
      · exact overlooks_compositional.pure _
      · exact overlooks_compositional.pure _

end Output

namespace Project

open Disk (Path FileTree Names)
open Disk.FileTree (Alike Overlooks)

/-- **What a file holds makes no difference to model files that stand elsewhere.** -/
theorem overlooks_outcomes {place : Names} {job : Job} {files : List Names}
    (h : ∀ names ∈ files, (job.modelDir.below names).place ≠ place) :
    Overlooks place (outcomes job files) :=
  compositional_outcomes Disk.FileTree.overlooks_compositional
    (fun names hn => Disk.FileTree.overlooks_readText (h names hn))
    fun _ _ _ lot _ => Output.overlooks_writeFiles place job.outDir lot

end Project
end ModelStubs
