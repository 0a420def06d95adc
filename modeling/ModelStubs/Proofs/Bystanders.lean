/-
# A file that nobody looks at

Two trees that differ by one file (`Disk.FileTree.Beside`) answer alike to every request
whose path does not lead through the place of that file, and they differ by the same
file afterwards. So the two runs of a program that stays away from the place go the
same way (`Disk.FileTree.Blind`), whatever the program does elsewhere.

Key definitions: `Disk.Path.Avoids`, `Disk.FileTree.Beside`, `Disk.FileTree.Blind`.
Key theorems: `Disk.FileTree.Beside.follow_eq`, `Disk.FileTree.avoids_of_resolve`,
`Disk.FileTree.blind_makeDirectories`, `Output.blind_writeFiles`.
-/
import ModelStubs.Proofs.Confinement

namespace ModelStubs

namespace Disk

open FileTree (Route)

/-- The path does not lead through the place. -/
def Path.Avoids (p : Path) (place : Names) : Prop := ¬ p.Passes place

instance (p : Path) (place : Names) : Decidable (p.Avoids place) :=
  inferInstanceAs (Decidable (¬ p.Passes place))

namespace FileTree

/-- The second tree has a file at `place`, where the first has nothing, and is the same
elsewhere. -/
structure Beside (place : Names) (content : Content) (t u : FileTree) : Prop where
  absent : t.get? place = none
  present : u.HasFile place content
  others : ∀ q, q ≠ place → u.get? q = t.get? q

namespace Beside

variable {place : Names} {content : Content} {t u : FileTree}

/-- Trees that differ by a file. -/
theorem of_put (hnone : t.get? place = none) :
    Beside place content t (t.put place (.item (.file content))) := by
  have hne : place ≠ [] := by
    rintro rfl
    simp [FileTree.get?] at hnone
  exact ⟨hnone, get?_put_self hne _, fun q hq => get?_put_of_ne hq _⟩

theorem grows (h : Beside place content t u) : Grows t u := by
  have hother : ∀ q n, t.get? q = some n → u.get? q = t.get? q := by
    intro q n hn
    refine h.others q fun e => ?_
    rw [e, h.absent] at hn
    cases hn
  refine ⟨fun q hd => ?_, fun q c hc => ⟨c, ?_⟩, fun q target => ⟨fun hl => ?_, fun hl => ?_⟩⟩
  · rw [hother q _ hd, hd]
  · rw [HasFile, hother q _ hc]
    exact hc
  · by_cases e : q = place
    · rw [e, h.present] at hl
      cases hl
    · rw [← h.others q e, hl]
  · rw [hother q _ hl, hl]

theorem unlinked (h : Beside place content t u) (ht : t.Unlinked) : u.Unlinked :=
  h.grows.unlinked ht

/-- The same change elsewhere keeps the difference. -/
theorem put (h : Beside place content t u) {q : Names} (hq : q ≠ place) (n : Node) :
    Beside place content (t.put q n) (u.put q n) := by
  refine ⟨?_, ?_, fun r hr => ?_⟩
  · rw [get?_put_of_ne hq.symm]
    exact h.absent
  · rw [HasFile, get?_put_of_ne hq.symm]
    exact h.present
  · by_cases e : r = q
    · subst e
      cases r with
      | nil => rfl
      | cons x xs => rw [get?_put_self (by simp), get?_put_self (by simp)]
    · rw [get?_put_of_ne e, get?_put_of_ne e, h.others r hr]

/-- Names are followed alike if they do not come by the file. -/
theorem follow_eq (h : Beside place content t u) (ht : t.Unlinked) (links : Nat) :
    ∀ (names : List String) (base : Names), (∀ xs, xs <+: names → landing base xs ≠ place) →
    u.follow links base names = t.follow links base names
  | [], base, _ => by rw [follow, follow]
  | n :: ns, base, hav => by
    have hbase : base ≠ place := hav [] List.nil_prefix
    -- whatever the first name leads to, the others stay away from the file
    have ih : ∀ base', landing base [n] = base' →
        u.follow links base' ns = t.follow links base' ns := by
      rintro base' rfl
      refine h.follow_eq ht links ns _ fun xs hxs => ?_
      rw [← landing_append]
      exact hav (n :: xs) (List.cons_prefix_cons.mpr ⟨rfl, hxs⟩)
    rw [follow, follow, h.others base hbase]
    by_cases hd : t.get? base ≠ some (.item .directory)
    · rw [if_pos hd, if_pos hd]
    · rw [if_neg hd, if_neg hd]
      by_cases hhere : n = "."
      · rw [if_pos hhere, if_pos hhere]
        exact ih base (by simp [landing, hhere])
      · rw [if_neg hhere, if_neg hhere]
        by_cases hup : n = ".."
        · rw [if_pos hup, if_pos hup]
          exact ih base.dropLast (by simp [landing, hup])
        · rw [if_neg hup, if_neg hup]
          have hland : landing base [n] = base ++ [n] := by simp [landing, hhere, hup]
          have hnext : base ++ [n] ≠ place := by
            rw [← hland]
            exact hav [n] (List.cons_prefix_cons.mpr ⟨rfl, List.nil_prefix⟩)
          rw [h.others _ hnext]
          by_cases hlong : nameLimit < n.utf8ByteSize
          · rw [if_pos hlong, if_pos hlong]
          · rw [if_neg hlong, if_neg hlong]
            cases hnode : t.get? (base ++ [n]) with
            | none => rfl
            | some node =>
              cases node with
              | link target => exact absurd hnode (ht _ _)
              | item i => exact ih _ hland

end Beside

variable {place : Names} {content : Content} {t u : FileTree}

/-! ### Paths that stay away -/

/-- A path that leads somewhere stays away from places where nothing is. -/
theorem avoids_of_resolve (ht : t.Unlinked) {p : Path} {q : Names} (h : t.resolve p = .ok q)
    (hnone : t.get? place = none) : p.Avoids place :=
  fun hpass => get?_of_passes ht h hpass hnone

theorem landing_ne_of_avoids {p : Path} (hp : p.Avoids place) {xs : List String}
    (hxs : xs <+: (Route.of p.text).names) : landing [] xs ≠ place :=
  fun e => hp (Path.passes_iff.mpr ⟨xs, hxs, e⟩)

namespace Beside

variable (h : Beside place content t u) (ht : t.Unlinked) {p : Path} (hp : p.Avoids place)

include h ht hp

theorem follow_steps_eq :
    u.follow linkLimit [] (Route.of p.text).steps =
      t.follow linkLimit [] (Route.of p.text).steps := by
  refine h.follow_eq ht linkLimit _ [] fun xs hxs => ?_
  unfold Route.steps at hxs
  split at hxs
  · rcases List.prefix_concat_iff.mp hxs with rfl | hxs
    · rw [landing_append]
      exact landing_ne_of_avoids hp List.prefix_rfl
    · exact landing_ne_of_avoids hp hxs
  · exact landing_ne_of_avoids hp hxs

theorem resolve_eq : u.resolve p = t.resolve p := by
  unfold resolve
  cases hr : routeOf p with
  | error e => rfl
  | ok r =>
    have hroute := routeOf_eq_ok hr
    subst hroute
    simp only
    rw [h.follow_steps_eq ht hp]

theorem status_eq : u.status p = t.status p := by
  unfold status
  rw [h.resolve_eq ht hp]
  cases hr : t.resolve p with
  | error e => rfl
  | ok q =>
    have hq : q ≠ place := by
      rintro rfl
      rw [place_of_resolve ht hr] at hp
      exact hp p.passes_place
    simp only [h.others q hq]

theorem holds_eq : u.holds p = t.holds p := by
  rw [holds, holds, h.status_eq ht hp]

theorem isDirectory_eq : u.isDirectory p = t.isDirectory p := by
  rw [isDirectory, isDirectory, h.status_eq ht hp]

theorem readText_eq : u.readText p = t.readText p := by
  rw [readText, readText, h.status_eq ht hp]

/-- The directory that all names but the last lead to is the same. -/
theorem followParent_eq (last : String) :
    u.followParent linkLimit [] (Route.of p.text).names.dropLast last =
      t.followParent linkLimit [] (Route.of p.text).names.dropLast last := by
  have hpre : (Route.of p.text).names.dropLast <+: (Route.of p.text).names :=
    List.dropLast_prefix _
  have hfollow := h.follow_eq ht linkLimit (Route.of p.text).names.dropLast [] fun xs hxs =>
    landing_ne_of_avoids hp (hxs.trans hpre)
  unfold followParent
  rw [hfollow]
  cases hf : t.follow linkLimit [] (Route.of p.text).names.dropLast with
  | error e => rfl
  | ok x =>
    obtain ⟨dir, rest⟩ := x
    have hdir : dir ≠ place := by
      rw [(follow_eq_ok_iff.mp hf).place_eq_landing ht]
      exact landing_ne_of_avoids hp hpre
    simp only [h.others dir hdir]

/-- The place under the last name is the same, with the same node. -/
theorem get?_last {dir : Names} {last last' : String} {rest : Nat}
    (hlast : (Route.of p.text).names.getLast? = some last)
    (hparent : t.followParent linkLimit [] (Route.of p.text).names.dropLast last =
      .ok (dir, last', rest)) (hspecial : ¬ (last' = "." ∨ last' = "..")) :
    dir ++ [last'] = p.place ∧ u.get? (dir ++ [last']) = t.get? (dir ++ [last']) := by
  obtain ⟨hl, -, rfl⟩ := followParent_eq_ok hparent
  obtain ⟨hhere, hup⟩ := not_or.mp hspecial
  have hplace : dir ++ [last'] = p.place := by
    rw [p.place_eq_landing, getLast?_eq_some hlast, landing_append, ← hl.place_eq_landing ht,
      landing, if_neg hhere, if_neg hup]
    rfl
  refine ⟨hplace, h.others _ ?_⟩
  rw [hplace]
  exact fun e => hp (e ▸ p.passes_place)

theorem newDirectory_eq :
    u.newDirectory (Route.of p.text) = t.newDirectory (Route.of p.text) := by
  unfold newDirectory
  cases hlast : (Route.of p.text).names.getLast? with
  | none => rfl
  | some last =>
    simp only
    rw [h.followParent_eq ht hp last]
    cases hparent : t.followParent linkLimit [] (Route.of p.text).names.dropLast last with
    | error e => rfl
    | ok x =>
      obtain ⟨dir, last', rest⟩ := x
      simp only
      by_cases hspecial : last' = "." ∨ last' = ".."
      · rw [if_pos hspecial, if_pos hspecial]
      · rw [if_neg hspecial, if_neg hspecial, (h.get?_last ht hp hlast hparent hspecial).2]

/-- A written file has the same target. -/
theorem fileTarget_eq (hops : Nat) :
    u.fileTarget linkLimit [] (Route.of p.text) (hops + 1) =
      t.fileTarget linkLimit [] (Route.of p.text) (hops + 1) := by
  unfold fileTarget
  cases hlast : (Route.of p.text).names.getLast? with
  | none => rfl
  | some last =>
    simp only
    rw [h.followParent_eq ht hp last]
    cases hparent : t.followParent linkLimit [] (Route.of p.text).names.dropLast last with
    | error e => rfl
    | ok x =>
      obtain ⟨dir, last', rest⟩ := x
      simp only
      by_cases hspecial : last' = "." ∨ last' = ".." ∨ (Route.of p.text).slash = true
      · rw [if_pos hspecial, if_pos hspecial]
      · rw [if_neg hspecial, if_neg hspecial]
        have hnames : ¬ (last' = "." ∨ last' = "..") := by
          rintro (e | e)
          · exact hspecial (.inl e)
          · exact hspecial (.inr (.inl e))
        rw [(h.get?_last ht hp hlast hparent hnames).2]
        by_cases hlong : nameLimit < last'.utf8ByteSize
        · rw [if_pos hlong, if_pos hlong]
        · rw [if_neg hlong, if_neg hlong]
          cases hnode : t.get? (dir ++ [last']) with
          | none => rfl
          | some node =>
            cases node with
            | link target => exact absurd hnode (ht _ _)
            | item i =>
              cases i with
              | file c => rfl
              | directory => rfl

end Beside

/-! ### Requests that stay away -/

/-- On trees without links that differ by a file at `place` the request has one answer,
and the trees differ by the same file afterwards. -/
def Blind (place : Names) {α : Type} (x : StateM FileTree α) : Prop :=
  ∀ content t u, t.Unlinked → Beside place content t u →
    (x.run u).1 = (x.run t).1 ∧ (x.run t).2.Unlinked ∧
      Beside place content (x.run t).2 (x.run u).2

theorem blind_compositional : Compositional (Blind place) where
  pure := fun _ _ _ _ ht h => ⟨rfl, ht, h⟩
  bind := by
    intro α β x f hx hf content t u ht h
    obtain ⟨hanswer, hunl, hbeside⟩ := hx content t u ht h
    have hrest := hf (x.run t).1 content (x.run t).2 (x.run u).2 hunl hbeside
    have hu : (x >>= f).run u = (f (x.run t).1).run (x.run u).2 := by
      rw [← hanswer]
      rfl
    rw [hu]
    exact hrest

variable {p : Path} (hp : p.Avoids place)

include hp

theorem blind_holds : Blind place (Access.holds (m := StateM FileTree) p) :=
  fun _ _ _ ht h => ⟨h.holds_eq ht hp, ht, h⟩

theorem blind_isDirectory : Blind place (Access.isDirectory (m := StateM FileTree) p) :=
  fun _ _ _ ht h => ⟨h.isDirectory_eq ht hp, ht, h⟩

theorem blind_readText : Blind place (Access.readText (m := StateM FileTree) p) :=
  fun _ _ _ ht h => ⟨h.readText_eq ht hp, ht, h⟩

theorem blind_makeDirectory : Blind place (Access.makeDirectory (m := StateM FileTree) p) := by
  intro content t u ht h
  show (u.makeDirectory p).1 = (t.makeDirectory p).1 ∧ (t.makeDirectory p).2.Unlinked ∧
    Beside place content (t.makeDirectory p).2 (u.makeDirectory p).2
  have hunl : (t.makeDirectory p).2.Unlinked :=
    (moreDirectories_makeDirectory rfl).grows.unlinked ht
  refine ⟨?_, hunl, ?_⟩
  · unfold makeDirectory
    cases hr : routeOf p with
    | error e => rfl
    | ok r =>
      have hroute := routeOf_eq_ok hr
      subst hroute
      simp only [h.newDirectory_eq ht hp]
      cases t.newDirectory (Route.of p.text) with
      | error e => rfl
      | ok q => rfl
  · unfold makeDirectory
    cases hr : routeOf p with
    | error e => exact h
    | ok r =>
      have hroute := routeOf_eq_ok hr
      subst hroute
      simp only [h.newDirectory_eq ht hp]
      cases hn : t.newDirectory (Route.of p.text) with
      | error e => exact h
      | ok q =>
        refine h.put ?_ _
        rw [place_of_newDirectory ht hn]
        exact fun e => hp (e ▸ p.passes_place)

theorem blind_writeText (s : String) :
    Blind place (Access.writeText (m := StateM FileTree) p s) := by
  intro content t u ht h
  show (u.writeText p s).1 = (t.writeText p s).1 ∧ (t.writeText p s).2.Unlinked ∧
    Beside place content (t.writeText p s).2 (u.writeText p s).2
  have hsame := h.fileTarget_eq ht hp linkLimit
  have hunl : (t.writeText p s).2.Unlinked := by
    cases hw : t.writeText p s with
    | mk result v =>
      cases result with
      | ok x =>
        obtain ⟨q, hstored⟩ := stored_of_writeText ht hw
        exact hstored.grows.unlinked ht
      | error e =>
        rw [writeText_error hw]
        exact ht
  refine ⟨?_, hunl, ?_⟩
  · unfold writeText
    cases hr : routeOf p with
    | error e => rfl
    | ok r =>
      have hroute := routeOf_eq_ok hr
      subst hroute
      simp only [hsame]
      cases t.fileTarget linkLimit [] (Route.of p.text) (linkLimit + 1) with
      | error e => rfl
      | ok q => rfl
  · unfold writeText
    cases hr : routeOf p with
    | error e => exact h
    | ok r =>
      have hroute := routeOf_eq_ok hr
      subst hroute
      simp only [hsame]
      cases hn : t.fileTarget linkLimit [] (Route.of p.text) (linkLimit + 1) with
      | error e => exact h
      | ok q =>
        refine h.put ?_ _
        rw [place_of_fileTarget ht hn]
        exact fun e => hp (e ▸ p.passes_place)

omit hp

/-- Directories are made alike. -/
theorem blind_makeDirectories {ps : List Path} (h : ∀ p ∈ ps, p.Avoids place) :
    Blind place (makeDirectories (m := StateM FileTree) ps) :=
  blind_compositional.makeDirectories (fun p hp => blind_makeDirectory (h p hp))
    fun p hp => blind_isDirectory (h p hp)

end FileTree
end Disk

namespace Output

open Disk (Path FileTree Names)
open Disk.FileTree (Blind blind_compositional)

/-- The place is neither below the directory `root` nor one that its path leads through. -/
structure Apart (root : Path) (place : Names) : Prop where
  outside : ¬ root.place <+: place
  avoids : root.Avoids place

variable {root : Path} {place : Names}

theorem Apart.avoids_join (h : Apart root place) {parts : List (List Char)}
    (hparts : PlainParts parts) : (root.join (pathOf parts)).Avoids place := by
  intro hpass
  rcases Path.passes_join hparts hpass with hp | hp
  · exact h.avoids hp
  · exact h.outside hp

/-- A file apart from the directory makes no difference to a call. -/
theorem blind_call (h : Apart root place) {c : Call} {parts : List (List Char)}
    (hparts : PlainParts parts) (hc : c.1 = pathOf parts) :
    Blind place ((diskSink (m := StateM FileTree) root).write c.1 c.2) := by
  have hfile : (root.join c.1).Avoids place := by
    rw [hc]
    exact h.avoids_join hparts
  have habove : ∀ p ∈ (root.join c.1).ancestors.drop 1, p.Avoids place := by
    intro p hp hpass
    have hpre := Path.components_of_mem_ancestors (List.mem_of_mem_drop hp)
    exact hfile (Path.passes_of_prefix hpre hpass)
  refine blind_compositional.bind (Disk.FileTree.blind_makeDirectories habove) fun result => ?_
  split
  · exact blind_compositional.pure _
  · refine blind_compositional.bind (Disk.FileTree.blind_writeText hfile c.2) fun result => ?_
    split
    · exact blind_compositional.pure _
    · exact blind_compositional.pure _

/-- **Writing files goes the same way whether or not a file stands apart.** -/
theorem blind_writeFiles (h : Apart root place) (files : GeneratedFiles) :
    Blind place (writeFiles (m := StateM FileTree) (diskSink root) files) := by
  unfold writeFiles
  cases hr : resolved files.entries with
  | error f => exact blind_compositional.pure _
  | ok calls =>
    refine blind_compositional.writeAll fun c hc => ?_
    obtain ⟨parts, hparts, hpath⟩ := (resolved_eq_ok_iff.mp hr).plain c hc
    exact blind_call h hparts hpath

end Output
end ModelStubs
