/-
# Written files stay below their directory

A disk sink is given the paths of accepted keys only, and those are made of plain
names. So whatever the keys are, and whether or not a call fails half-way, the tree
changes in few ways (`Output.Confined`): a file is new or changed only below the
directory that is written to, and a directory is new only there, or where the path of
that directory leads through. Nothing goes away.

Each call makes directories, at the places of the paths above the file, and then puts
one file. Both steps are confined, and being confined is transitive, so a run is
confined however far it gets.

Key definitions: `Disk.FileTree.NewDirectories`, `Output.Below`, `Output.Confined`.
Key theorems: `Disk.FileTree.makes_makeDirectories`, `Output.confined_call`,
`Output.confines_writeFiles`, `Output.writeFiles_confined`.
-/
import ModelStubs.Proofs.DiskWrites
import ModelStubs.Proofs.Places

namespace ModelStubs

namespace Disk

namespace FileTree

/-- Nothing has changed but for directories that are new at some of the places `among`. -/
def NewDirectories (among : Names → Prop) (t u : FileTree) : Prop :=
  ∀ place, u.get? place = t.get? place ∨
    t.get? place = none ∧ u.get? place = some (.item .directory) ∧ among place

namespace NewDirectories

variable {among : Names → Prop} {t u v : FileTree}

theorem refl (t : FileTree) : NewDirectories among t t := fun _ => .inl rfl

theorem trans (h : NewDirectories among t u) (h' : NewDirectories among u v) :
    NewDirectories among t v := by
  intro place
  rcases h' place with h' | ⟨hn', hd', hm⟩
  · rcases h place with h | ⟨hn, hd, hm⟩
    · exact .inl (h'.trans h)
    · exact .inr ⟨hn, h'.trans hd, hm⟩
  · rcases h place with h | ⟨-, hd, -⟩
    · exact .inr ⟨h.symm.trans hn', hd', hm⟩
    · rw [hd] at hn'
      cases hn'

theorem more (h : NewDirectories among t u) : MoreDirectories t u := by
  intro place
  rcases h place with h | ⟨hn, hd, -⟩
  · exact .inl h
  · exact .inr ⟨hn, hd⟩

end NewDirectories

/-- Whatever its answer, in a tree without links the request changes nothing but for
directories at the given places. -/
def Makes (among : Names → Prop) {α : Type} (x : StateM FileTree α) : Prop :=
  ∀ t : FileTree, t.Unlinked → NewDirectories among t (x.run t).2

variable {among : Names → Prop}

theorem makes_compositional : Compositional (Makes among) where
  pure := fun _ t _ => .refl t
  bind := by
    intro α β x f h h' t ht
    have hx := h t ht
    have hu : (x.run t).2.Unlinked := hx.more.grows.unlinked ht
    exact hx.trans (h' (x.run t).1 (x.run t).2 hu)

/-- One directory is made at the place that its path spells. -/
theorem makes_makeDirectory {p : Path} (hp : among p.place) :
    Makes among (Access.makeDirectory (m := StateM FileTree) p) := by
  intro t ht
  show NewDirectories among t (t.makeDirectory p).2
  unfold makeDirectory
  cases hr : routeOf p with
  | error e => exact .refl t
  | ok r =>
    have hroute := routeOf_eq_ok hr
    subst hroute
    cases hn : t.newDirectory (Route.of p.text) with
    | error e =>
      simp only [hn]
      exact .refl t
    | ok place =>
      simp only [hn]
      obtain ⟨hne, hnone⟩ := newDirectory_eq_ok hn
      have hplace := place_of_newDirectory ht hn
      intro q
      by_cases hq : q = place
      · subst hq
        exact .inr ⟨hnone, get?_put_self hne _, hplace ▸ hp⟩
      · exact .inl (get?_put_of_ne hq _)

/-- Directories are made at the places that the given paths spell, and nowhere else. -/
theorem makes_makeDirectories {ps : List Path} (h : ∀ p ∈ ps, among p.place) :
    Makes among (makeDirectories (m := StateM FileTree) ps) :=
  makes_compositional.makeDirectories (fun p hp => makes_makeDirectory (h p hp))
    fun _ _ t _ => .refl t

end FileTree
end Disk

namespace Output

open Disk (Path FileTree Names Content)
open Disk.FileTree (Grows NewDirectories partNames)

/-- A place strictly below another. -/
def Below (dir place : Names) : Prop := dir <+: place ∧ place ≠ dir

/-- A place where writing below the directory `root` may make a directory: that of `root`
itself, one below it, or one that its path leads through. -/
def MayMake (root : Path) (place : Names) : Prop := root.place <+: place ∨ root.Passes place

/-- What may come of writing files below the directory `root`. -/
structure Confined (root : Path) (t u : FileTree) : Prop where
  /-- Nothing is removed: directories stay directories and files stay files. -/
  grows : Grows t u
  /-- No file is new or changed but below the directory. -/
  file : ∀ place content, ¬ Below root.place place →
    (u.HasFile place content ↔ t.HasFile place content)
  /-- New directories stand where nothing was, and only where they may be made. -/
  directory : ∀ place, u.get? place = some (.item .directory) →
    t.get? place = some (.item .directory) ∨ t.get? place = none ∧ MayMake root place

namespace Confined

variable {root : Path} {t u v : FileTree}

theorem refl (t : FileTree) : Confined root t t :=
  ⟨.refl t, fun _ _ _ => Iff.rfl, fun _ h => .inl h⟩

theorem trans (h : Confined root t u) (h' : Confined root u v) : Confined root t v := by
  refine ⟨h.grows.trans h'.grows, fun place content hb => ?_, fun place hd => ?_⟩
  · exact (h'.file place content hb).trans (h.file place content hb)
  · rcases h'.directory place hd with hu | ⟨hnone, hmay⟩
    · exact h.directory place hu
    · -- what is not there later was not there before
      refine .inr ⟨?_, hmay⟩
      cases ht : t.get? place with
      | none => rfl
      | some n =>
        have hkept : ∃ n', u.get? place = some n' := by
          cases n with
          | item i =>
            obtain ⟨i', hi'⟩ := h.grows.item ht
            exact ⟨_, hi'⟩
          | link target => exact ⟨_, (h.grows.link place target).mpr ht⟩
        obtain ⟨n', hn'⟩ := hkept
        rw [hn'] at hnone
        cases hnone

/-- New directories at the right places are confined. -/
theorem of_newDirectories (h : NewDirectories (MayMake root) t u) : Confined root t u := by
  refine ⟨h.more.grows, fun _ _ _ => h.more.hasFile_iff, fun place hd => ?_⟩
  rcases h place with h | ⟨hnone, -, hmay⟩
  · exact .inl (h.symm.trans hd)
  · exact .inr ⟨hnone, hmay⟩

/-- A file put below the directory is confined. -/
theorem put {place : Names} {c : Content} (hb : Below root.place place)
    (hfree : t.get? place = none ∨ ∃ c, t.HasFile place c) :
    Confined root t (t.put place (.item (.file c))) := by
  have hne : place ≠ [] := by
    rintro rfl
    exact hb.2 (List.prefix_nil.mp hb.1).symm
  refine ⟨Disk.FileTree.grows_put hne hfree, fun q content hq => ?_, fun q hd => ?_⟩
  · have hqp : q ≠ place := fun e => hq (e ▸ hb)
    rw [FileTree.HasFile, Disk.FileTree.get?_put_of_ne hqp]
    rfl
  · by_cases e : q = place
    · rw [e, Disk.FileTree.get?_put_self hne] at hd
      cases hd
    · rw [Disk.FileTree.get?_put_of_ne e] at hd
      exact .inl hd

end Confined

/-- The paths above a file of parts spell places where a directory may be made. -/
theorem mayMake_of_mem_ancestors {root above : Path} {parts : List (List Char)}
    (h : PlainParts parts) (ha : above ∈ (root.join (pathOf parts)).ancestors) :
    MayMake root above.place := by
  have hpass := Path.passes_of_prefix (Path.components_of_mem_ancestors ha) above.passes_place
  rcases Path.passes_join h hpass with hp | hp
  · exact .inr hp
  · exact .inl hp

/-- A path of parts spells a place strictly below the directory. -/
theorem below_join (root : Path) {parts : List (List Char)} (h : PlainParts parts) :
    Below root.place (root.join (pathOf parts)).place := by
  rw [Path.place_join root h]
  refine ⟨List.prefix_append _ _, fun e => ?_⟩
  have hnil : partNames parts = [] := by simpa using e
  exact h.1 (by simpa [partNames] using hnil)

/-- **A call to a disk sink is confined**, also if it fails after some directories were
made. -/
theorem confined_call {root : Path} {t : FileTree} (ht : t.Unlinked) {c : Call}
    {parts : List (List Char)} (h : PlainParts parts) (hc : c.1 = pathOf parts) :
    Confined root t ((diskSink root).call t c).2 := by
  have habove : ∀ p ∈ (root.join c.1).ancestors.drop 1, MayMake root p.place := by
    intro p hp
    rw [hc] at hp
    exact mayMake_of_mem_ancestors h (List.mem_of_mem_drop hp)
  have hmake := Disk.FileTree.makes_makeDirectories habove t ht
  rw [diskSink_call]
  split
  · next e u hu =>
    rw [hu] at hmake
    exact .of_newDirectories hmake
  · next u hu =>
    rw [hu] at hmake
    have hconf : Confined root t u := .of_newDirectories hmake
    have hunl : u.Unlinked := hconf.grows.unlinked ht
    split
    · next e v hv =>
      rw [Disk.FileTree.writeText_error hv]
      exact hconf
    · next v hv =>
      obtain ⟨place, hw, rfl⟩ := (Disk.FileTree.writeText_eq_ok_iff hunl).mp hv
      have hplace := hw.place_eq hunl
      have hbelow : Below root.place place := by
        rw [hplace, hc]
        exact below_join root h
      exact hconf.trans (.put hbelow hw.free)

/-- Whatever its answer, what the request does to a tree without links is confined. -/
def Confines (root : Path) {α : Type} (x : StateM FileTree α) : Prop :=
  ∀ t : FileTree, t.Unlinked → Confined root t (x.run t).2

theorem confines_compositional {root : Path} : Disk.Compositional (Confines root) where
  pure := fun _ t _ => .refl t
  bind := by
    intro α β x f hx hf t ht
    have hfirst := hx t ht
    exact hfirst.trans (hf (x.run t).1 (x.run t).2 (hfirst.grows.unlinked ht))

/-- Writing files is confined, up to the call that fails. -/
theorem confines_writeFiles (root : Path) (files : GeneratedFiles) :
    Confines root (writeFiles (m := StateM FileTree) (diskSink root) files) := by
  unfold writeFiles
  cases hr : resolved files.entries with
  | error f => exact confines_compositional.pure _
  | ok calls =>
    refine confines_compositional.writeAll fun c hc => ?_
    obtain ⟨parts, hparts, hpath⟩ := (resolved_eq_ok_iff.mp hr).plain c hc
    exact fun t ht => confined_call ht hparts hpath

/-- **Writing files to a disk is confined to its directory.** In a tree without links,
whatever the directory, the keys and the texts are, and whether the run succeeds or
fails: what comes of it is confined, and the place that the path of the directory
spells is the one it leads to, if it leads anywhere. -/
theorem writeFiles_confined (root : Path) (files : GeneratedFiles) {t : FileTree}
    (ht : t.Unlinked) {result : Except Failure (List Path)} {u : FileTree}
    (h : (writeFiles (m := StateM FileTree) (diskSink root) files).run t = (result, u)) :
    Confined root t u ∧ ∀ place, u.resolve root = .ok place → place = root.place := by
  have hconf : Confined root t u := by
    have hrun := confines_writeFiles root files t ht
    rw [h] at hrun
    exact hrun
  refine ⟨hconf, fun place hp => ?_⟩
  exact Disk.FileTree.place_of_resolve (hconf.grows.unlinked ht) hp

/-- A tree with one file, in the directory `out`. -/
def logTree : FileTree :=
  ⟨[(["out"], .item .directory), (["out", "log"], .item (.file (.text "kept")))]⟩

/-- Files of which the last cannot be written: a file stands where its directory would. -/
def clashingFiles : GeneratedFiles :=
  ⟨[("a/b", "one"), ("c", "two"), ("c/d", "three")], by decide⟩

theorem logTree_unlinked : logTree.Unlinked := by
  refine Disk.FileTree.unlinked_of_entries fun e he => ?_
  simp only [logTree, List.mem_cons, List.not_mem_nil, or_false] at he
  rcases he with rfl | rfl
  · exact ⟨_, rfl⟩
  · exact ⟨_, rfl⟩

/-- Writing next to `out`, by a path that goes through it, leaves its file alone. -/
theorem writeFiles_confined_clashing : logTree.Unlinked ∧ ∃ result u,
    (writeFiles (m := StateM FileTree) (diskSink ⟨"out/../gen"⟩) clashingFiles).run logTree =
      (result, u) ∧
    Confined ⟨"out/../gen"⟩ logTree u ∧ u.HasFile ["out", "log"] (.text "kept") := by
  obtain ⟨hconf, -⟩ := writeFiles_confined ⟨"out/../gen"⟩ clashingFiles logTree_unlinked rfl
  have hbelow : ¬ Below (Disk.Path.mk "out/../gen").place ["out", "log"] := by
    have hplace : (Disk.Path.mk "out/../gen").place = ["gen"] := by decide
    rw [hplace]
    rintro ⟨hpre, -⟩
    exact absurd hpre (by decide)
  refine ⟨logTree_unlinked, _, _, rfl, hconf, ?_⟩
  exact (hconf.file _ _ hbelow).mpr rfl

end Output
end ModelStubs
