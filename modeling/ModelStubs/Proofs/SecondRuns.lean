/-
# Writing a second time

The first run goes from one tree to a last one. The second starts there, and stands at a
tree that differs from the last one by the files that it has written by then: these hold
what they held at the same point of the first run (`Output.Retraced`). Nothing is made, as
all directories are there, and no file is new.

That the two runs stay side by side is looked at for single requests and goes through
sequences (`Output.Retraces.bind`). The answers are the same, but for an error that the
second run may meet earlier on the way (`Output.Repeats`).

Key definitions: `Output.Retraced`, `Output.Repeats`, `Output.Retraces`.
Key theorems: `Output.Retraced.put`, `Output.Retraces.bind`, `Output.retraces_call`,
`Output.retraces_writeFiles`.
-/
import ModelStubs.Proofs.Obstacles

namespace ModelStubs

namespace Disk
namespace FileTree

open Output (PlainParts pathOf Reached)

/-! ### Leading up out of a missing directory -/

/-- What is missing now was missing before. -/
theorem ClimbsOut.earlier {t u : FileTree} {p : Path} (h : ClimbsOut u p) (hg : Grows t u) :
    ClimbsOut t p := by
  obtain ⟨xs, ys, hnames, hnone⟩ := h
  refine ⟨xs, ys, hnames, ?_⟩
  cases hnode : t.get? (landing [] xs) with
  | none => rfl
  | some node =>
    cases node with
    | item i =>
      obtain ⟨i', hi'⟩ := hg.item hnode
      rw [hnone] at hi'
      cases hi'
    | link target =>
      rw [(hg.link _ _).mpr hnode] at hnone
      cases hnone

/-- A path below a directory leads up only if the directory's path does. -/
theorem ClimbsOut.of_join {t : FileTree} {root p : Path} {parts : List (List Char)}
    (h : PlainParts parts) (hp : Extends (root.join (pathOf parts)) p) (hc : ClimbsOut t p) :
    ClimbsOut t root := by
  obtain ⟨xs, ys, hnames, hnone⟩ := hc
  obtain ⟨ns, -, hjoin⟩ := hp.names
  rw [route_join root h, hnames] at hjoin
  have hsplit : (Route.of root.text).names ++ partNames parts = xs ++ ".." :: (ys ++ ns) := by
    simpa using hjoin
  rcases List.append_eq_append_iff.mp hsplit with ⟨zs, -, hzs⟩ | ⟨zs, hzs, hrest⟩
  · -- the parts do not lead up
    have hup : ".." ∈ partNames parts := by
      rw [hzs]
      simp
    exact absurd rfl (partNames_plain h ".." hup).2
  · cases zs with
    | nil =>
      have hup : ".." ∈ partNames parts := by
        rw [List.nil_append] at hrest
        rw [← hrest]
        simp
      exact absurd rfl (partNames_plain h ".." hup).2
    | cons z zs =>
      obtain ⟨rfl, -⟩ := List.cons_eq_cons.mp hrest
      exact ⟨xs, zs, hzs, hnone⟩

/-! ### Writing a text again -/

/-- A text that was written can be written again. -/
theorem writeText_again_of_ok {t u w : FileTree} (ht : t.Unlinked) {p : Path} {s : String}
    {place : Names} (h : t.Writable p place) (hu : u = t.put place (.item (.file (.text s))))
    (hg : Grows u w) :
    w.writeText p s = (.ok (), w.put place (.item (.file (.text s)))) := by
  have htu : Grows t u := by
    rw [hu]
    exact grows_put h.ne_nil h.free
  have hfile : ∃ c, w.HasFile place c := by
    refine hg.file place (.text s) ?_
    rw [HasFile, hu, get?_put_self h.ne_nil]
  have hw := (htu.trans hg).unlinked ht
  refine (writeText_eq_ok_iff hw).mpr ⟨place, ?_, rfl⟩
  obtain ⟨hr, hslash, hnames, hl, he, -⟩ := h
  have hdir := (htu.trans hg).directory _ he.directory
  exact .intro hr hslash hnames (hl.grows (htu.trans hg)) { he with directory := hdir } (.inr hfile)

/-- A text that was not written is not written later, if the directory above was there. -/
theorem writeText_again_of_error {t u : FileTree} (ht : t.Unlinked) {p q : Path} {s : String}
    {e : Error} (h : t.writeText p s = (.error e, t)) (habove : Above q p) (hq : Reached q t)
    (hg : Grows t u) : u.writeText p s = (.error e, u) := by
  obtain ⟨init, last, dir, hnames, hl, hd⟩ := leads_of_above ht habove hq
  unfold writeText at h ⊢
  cases hr : routeOf p with
  | error e' =>
    simp only [hr] at h
    cases h
    rfl
  | ok r =>
    simp only [hr] at h
    rw [← routeOf_eq_ok hr] at hnames
    have hparent : t.followParent linkLimit [] r.names.dropLast last = .ok (dir, last, linkLimit) := by
      rw [hnames, List.dropLast_concat, followParent, follow_eq_ok_iff.mpr hl]
      simp [hd]
    have hparent' : u.followParent linkLimit [] r.names.dropLast last =
        .ok (dir, last, linkLimit) := by
      rw [hnames, List.dropLast_concat, followParent, follow_eq_ok_iff.mpr (hl.grows hg)]
      simp [hg.directory _ hd]
    have hlast : r.names.getLast? = some last := by rw [hnames, List.getLast?_concat]
    have htarget : t.fileTarget linkLimit [] r (linkLimit + 1) = .error e := by
      split at h
      · next e' he =>
        cases h
        exact he
      · cases h
    have hagain : u.fileTarget linkLimit [] r (linkLimit + 1) = .error e := by
      unfold fileTarget at htarget ⊢
      simp only [hlast, hparent, hparent'] at htarget ⊢
      split at htarget
      · next hspecial =>
        rw [if_pos hspecial]
        exact htarget
      · next hspecial =>
        rw [if_neg hspecial]
        split at htarget
        · next hlong =>
          rw [if_pos hlong]
          exact htarget
        · next hlong =>
          rw [if_neg hlong]
          split at htarget
          · cases htarget
          · cases htarget
          · next hdir =>
            rw [hg.directory _ hdir]
            exact htarget
          · next target hlink => exact absurd hlink (ht _ _)
    simp only [hagain]

end FileTree
end Disk

namespace Output

open Disk (Path FileTree Names Content)
open Disk.FileTree (Grows MoreDirectories ClimbsOut Route partNames)

/-! ### The two runs side by side -/

/-- Where the second run stands when the first stood at the tree `t`: the tree `w` is the
last one of the first run, but for files that hold what they hold in `t`. -/
structure Retraced (root : Path) (named : String → Prop) (first last t w : FileTree) : Prop where
  changes : Changes root named first t
  places : w.entries.map Prod.fst = last.entries.map Prod.fst
  node : ∀ q, w.get? q = last.get? q ∨
    ∃ c d, t.HasFile q c ∧ w.HasFile q c ∧ last.HasFile q d

namespace Retraced

variable {root : Path} {named : String → Prop} {first last t w : FileTree}

/-- The second run starts where the first ended. -/
theorem start (root : Path) (named : String → Prop) (first last : FileTree) :
    Retraced root named first last first last :=
  ⟨.refl, rfl, fun _ => .inl rfl⟩

/-- Nothing but the texts of files differs from the last tree. -/
theorem grows_last (h : Retraced root named first last t w) : Grows last w := by
  refine ⟨fun q hq => ?_, fun q c hc => ?_, fun q target => ?_⟩
  · rcases h.node q with hsame | ⟨c, d, -, -, hd⟩
    · rw [hsame, hq]
    · rw [FileTree.HasFile, hq] at hd
      cases hd
  · rcases h.node q with hsame | ⟨c', d, -, hw, -⟩
    · exact ⟨c, by rw [FileTree.HasFile, hsame]; exact hc⟩
    · exact ⟨c', hw⟩
  · rcases h.node q with hsame | ⟨c, d, -, hw, hd⟩
    · rw [hsame]
    · rw [FileTree.HasFile] at hw hd
      rw [hw, hd]
      simp

/-- New directories of the first run are there in the second. -/
theorem more {u : FileTree} (h : Retraced root named first last t w)
    (hu : Changes root named first u) (hmore : MoreDirectories t u) :
    Retraced root named first last u w := by
  refine ⟨hu, h.places, fun q => (h.node q).imp id ?_⟩
  rintro ⟨c, d, ht, hw, hd⟩
  exact ⟨c, d, hmore.kept ht, hw, hd⟩

/-- A file that the first run wrote is there to be written again. -/
theorem put {place : Names} (hne : place ≠ []) {c : Content}
    (h : Retraced root named first last t w)
    (hchanges : Changes root named first (t.put place (.item (.file c))))
    (hg : Grows (t.put place (.item (.file c))) last) :
    Retraced root named first last (t.put place (.item (.file c)))
      (w.put place (.item (.file c))) := by
  have hself := Disk.FileTree.get?_put_self (t := t) hne (.item (.file c))
  obtain ⟨d, hd⟩ := hg.file place c hself
  obtain ⟨d', hd'⟩ := h.grows_last.file place d hd
  have hmem : place ∈ w.entries.map Prod.fst :=
    List.mem_map_of_mem (Disk.FileTree.mem_entries_of_get? hne hd')
  refine ⟨hchanges, ?_, fun q => ?_⟩
  · rw [← h.places]
    show (Disk.FileTree.putEntry place _ w.entries).map Prod.fst = _
    rw [Disk.FileTree.places_putEntry, if_pos hmem]
  · by_cases hq : q = place
    · subst hq
      exact .inr ⟨c, d, hself, Disk.FileTree.get?_put_self hne _, hd⟩
    · unfold FileTree.HasFile
      rw [Disk.FileTree.get?_put_of_ne hq, Disk.FileTree.get?_put_of_ne hq]
      exact h.node q

/-- A file under a name that is not written holds what it held at first. -/
theorem hasFile (h : Retraced root named first last t w) (hlast : Changes root named first last)
    {place : Names} {c : Content} (hname : ∀ n, place.getLast? = some n → ¬ named n)
    (hc : first.HasFile place c) : t.HasFile place c ∧ w.HasFile place c := by
  have ht := (h.changes.hasFile_iff hname).mpr hc
  refine ⟨ht, ?_⟩
  rcases h.node place with hsame | ⟨d, -, hd, hw, -⟩
  · rw [FileTree.HasFile, hsame]
    exact (hlast.hasFile_iff hname).mpr hc
  · rw [FileTree.HasFile, ht] at hd
    cases hd
    exact hw

end Retraced

/-- The second answer is the first, but that a file which was in the way of a directory may
be met on the way to a longer path. -/
inductive Repeats (climbs : Prop) {ε α : Type} (wrap : Disk.Error → ε) :
    Except ε α → Except ε α → Prop
  | same (a : Except ε α) : Repeats climbs wrap a a
  | met : climbs → Repeats climbs wrap (.error (wrap .alreadyExists)) (.error (wrap .notDirectory))

/-- Side by side with the request `x` of the first run, the request `y` of the second comes
to a related answer. -/
structure Retraces (root : Path) (named : String → Prop) (first last : FileTree) {α : Type}
    (R : α → α → Prop) (x y : StateM FileTree α) : Prop where
  performs : Performs root named x
  agrees : ∀ t w, Retraced root named first last t w → Grows (x.run t).2 last →
    R (x.run t).1 (y.run w).1 ∧ Retraced root named first last (x.run t).2 (y.run w).2

section Retraces

variable {root : Path} {named : String → Prop} {first last : FileTree}

theorem Retraces.pure {α : Type} {R : α → α → Prop} {a b : α} (h : R a b) :
    Retraces root named first last R (Pure.pure a) (Pure.pure b) :=
  ⟨fun _ _ => .refl, fun _ _ hw _ => ⟨h, hw⟩⟩

/-- The runs stay side by side in sequences. -/
theorem Retraces.bind (hfirst : first.Unlinked) {α β : Type} {R : α → α → Prop}
    {S : β → β → Prop} {x y : StateM FileTree α} {f g : α → StateM FileTree β}
    (hx : Retraces root named first last R x y) (hrefl : ∀ a, R a a)
    (hf : ∀ a b, R a b → Retraces root named first last S (f a) (g b)) :
    Retraces root named first last S (x >>= f) (y >>= g) where
  performs := performs_compositional.bind hx.performs fun a => (hf a a (hrefl a)).performs
  agrees := by
    intro t w hw hlast
    have ht := hw.changes.grows.unlinked hfirst
    have hnext := (hf _ _ (hrefl (x.run t).1)).performs (x.run t).2
      ((hx.performs t ht).grows.unlinked ht)
    obtain ⟨hanswer, hmid⟩ := hx.agrees t w hw (hnext.grows.trans hlast)
    exact (hf _ _ hanswer).agrees _ _ hmid hlast

/-- The directories above a path of parts are made one above the other, up to the first
that need not be made. -/
theorem ancestors_join (root : Path) {parts : List (List Char)} (h : PlainParts parts) :
    ∃ q above, (root.join (pathOf parts)).ancestors = root.join (pathOf parts) :: q :: above ∧
      Disk.Above q (root.join (pathOf parts)) ∧ Disk.Climbs (q :: above) := by
  have hclimbs := Disk.climbs_ancestors_join root h
  unfold Path.ancestors at hclimbs ⊢
  generalize Path.above _ _ = above at hclimbs ⊢
  cases hclimbs with
  | top htop =>
    exfalso
    have hne : partNames parts ≠ [] := by simpa [partNames] using h.1
    have hnames : (Route.of (root.join (pathOf parts)).text).names =
        (Route.of root.text).names ++ partNames parts := by rw [Disk.FileTree.route_join root h]
    have hnil : (Route.of (root.join (pathOf parts)).text).names = [] := by
      rcases htop with hempty | hnil
      · rw [hempty]
        decide
      · exact hnil
    rw [hnil] at hnames
    exact hne (List.append_eq_nil_iff.mp hnames.symm).2
  | step hpq hrest => exact ⟨_, _, rfl, hpq, hrest⟩

section Call

variable {t u w : FileTree} {c : Call} {q : Path} {above : List Path}

/-- Directories that were not made are not made the second time. -/
theorem call_again_of_stuck (ht : t.Unlinked) (hr : t.Rooted) {parts : List (List Char)}
    (h : PlainParts parts) (hdirs : (root.join c.1).ancestors.drop 1 = q :: above)
    (hq : Disk.Above q (root.join (pathOf parts))) (hclimbs : Disk.Climbs (q :: above))
    {e : Disk.Error}
    (hmake : (Disk.makeDirectories (m := StateM FileTree) (q :: above)).run t = (.error e, u))
    (hgrown : Grows u w) : ∃ e', (diskSink root).call w c = (.error e', w) ∧
      Repeats (ClimbsOut t root) id (.error e : Except Disk.Error Path) (.error e') := by
  obtain ⟨e', hagain, he⟩ :=
    Disk.FileTree.makeDirectories_again_of_error ht hr hclimbs hmake hgrown
  refine ⟨e', by rw [diskSink_call, hdirs, hagain], ?_⟩
  rcases he with rfl | ⟨rfl, rfl, p, hp, hout⟩
  · exact .same _
  · have hextends : Disk.Extends (root.join (pathOf parts)) p := by
      rcases List.mem_cons.mp hp with rfl | hp
      · exact hq.extends
      · exact hq.extends.trans (hclimbs.extends p hp)
    exact .met (hout.of_join h hextends)

/-- A text that was not written is not written the second time. -/
theorem call_again_of_unwritten (ht : t.Unlinked)
    (hdirs : (root.join c.1).ancestors.drop 1 = q :: above) (hq : Disk.Above q (root.join c.1))
    (hmake : (Disk.makeDirectories (m := StateM FileTree) (q :: above)).run t = (.ok (), u))
    {e : Disk.Error} (hwrite : u.writeText (root.join c.1) c.2 = (.error e, u))
    (hgrown : Grows u w) : (diskSink root).call w c = (.error e, w) := by
  have hu := (Disk.FileTree.attempts_of_run hmake).more.grows.unlinked ht
  have hreached := Disk.FileTree.reached_of_makeDirectories ht hmake
  rw [diskSink_call, hdirs, Disk.FileTree.makeDirectories_again_of_ok ht hmake hgrown]
  simp only [Disk.FileTree.writeText_again_of_error hu hwrite hq hreached hgrown]

/-- A text that was written is written to the same place the second time. -/
theorem call_again_of_written (ht : t.Unlinked)
    (hdirs : (root.join c.1).ancestors.drop 1 = q :: above)
    (hmake : (Disk.makeDirectories (m := StateM FileTree) (q :: above)).run t = (.ok (), u))
    {place : Names} (hwritable : u.Writable (root.join c.1) place)
    (hgrown : Grows (u.put place (.item (.file (.text c.2)))) w) : (diskSink root).call w c =
      (.ok (root.join c.1), w.put place (.item (.file (.text c.2)))) := by
  have hu := (Disk.FileTree.attempts_of_run hmake).more.grows.unlinked ht
  have hput := Disk.FileTree.grows_put (c := .text c.2) hwritable.ne_nil hwritable.free
  rw [diskSink_call, hdirs, Disk.FileTree.makeDirectories_again_of_ok ht hmake (hput.trans hgrown)]
  simp only [Disk.FileTree.writeText_again_of_ok hu hwritable rfl hgrown]

end Call

/-- **A call comes to the same end the second time**, up to where an obstacle is met. -/
theorem retraces_call (hfirst : first.Unlinked) (hrooted : first.Rooted) {c : Call}
    {parts : List (List Char)} (h : PlainParts parts) (hc : c.1 = pathOf parts)
    (hnamed : ∀ n, (partNames parts).getLast? = some n → named n) :
    Retraces root named first last (Repeats (ClimbsOut first root) id)
      ((diskSink root).write c.1 c.2) ((diskSink root).write c.1 c.2) where
  performs := fun _ ht => changes_call ht h hc hnamed
  agrees := by
    intro t w hw hlast
    have hg := hw.changes.grows
    have ht := hg.unlinked hfirst
    have hchanges : Changes root named first ((diskSink root).call t c).2 :=
      hw.changes.trans (changes_call ht h hc hnamed)
    show Repeats _ _ ((diskSink root).call t c).1 ((diskSink root).call w c).1 ∧
      Retraced root named first last ((diskSink root).call t c).2 ((diskSink root).call w c).2
    have hgrown : Grows ((diskSink root).call t c).2 w := Grows.trans hlast hw.grows_last
    have hlast : Grows ((diskSink root).call t c).2 last := hlast
    obtain ⟨q, above, hancestors, hq, hclimbs⟩ := ancestors_join root h
    have hdirs : (root.join c.1).ancestors.drop 1 = q :: above := by
      rw [hc, hancestors]
      rfl
    rw [diskSink_call, hdirs] at hchanges hlast hgrown ⊢
    rcases hmake : (Disk.makeDirectories (m := StateM FileTree) (q :: above)).run t with ⟨e | _, u⟩
    · rw [hmake] at hchanges hlast hgrown
      obtain ⟨e', hagain, he⟩ := call_again_of_stuck ht (hw.changes.rooted hrooted) h hdirs hq
        hclimbs hmake hgrown
      rw [hagain]
      refine ⟨?_, hw.more hchanges (Disk.FileTree.attempts_of_run hmake).more⟩
      cases he with
      | same => exact .same _
      | met hout => exact .met (hout.earlier hg)
    · rw [hmake] at hchanges hlast hgrown
      have hmore := (Disk.FileTree.attempts_of_run hmake).more
      have hu := hmore.grows.unlinked ht
      simp only at hchanges hlast hgrown ⊢
      rcases hwrite : u.writeText (root.join c.1) c.2 with ⟨e | _, v⟩
      · have hv := Disk.FileTree.writeText_error hwrite
        subst hv
        rw [hwrite] at hchanges hlast hgrown
        rw [call_again_of_unwritten ht hdirs (hc ▸ hq) hmake hwrite hgrown]
        exact ⟨.same _, hw.more hchanges hmore⟩
      · rw [hwrite] at hchanges hlast hgrown
        obtain ⟨place, hwritable, rfl⟩ := (Disk.FileTree.writeText_eq_ok_iff hu).mp hwrite
        rw [call_again_of_written ht hdirs hmake hwritable hgrown]
        have hmay : ∀ p ∈ q :: above, MayMake root p.place := by
          intro p hp
          rw [← hdirs, hc] at hp
          exact mayMake_of_mem_ancestors h (List.mem_of_mem_drop hp)
        have hmade : Changes root named t
            ((Disk.makeDirectories (m := StateM FileTree) (q :: above)).run t).2 :=
          performs_makeDirectories hmay t ht
        rw [hmake] at hmade
        exact ⟨.same _,
          (hw.more (hw.changes.trans hmade) hmore).put hwritable.ne_nil hchanges hlast⟩

/-- Texts are written the second time as they were the first. -/
theorem retraces_writeAll (hfirst : first.Unlinked) (hrooted : first.Rooted) :
    ∀ {calls : List Call}, NamedCalls named calls →
    Retraces root named first last (Repeats (ClimbsOut first root) Failure.disk)
      (writeAll (diskSink root) calls) (writeAll (diskSink root) calls)
  | [], _ => .pure (.same _)
  | c :: calls, h => by
    obtain ⟨parts, hparts, hc, hnamed⟩ := h c List.mem_cons_self
    have hcall : Retraces root named first last (Repeats (ClimbsOut first root) id)
        ((diskSink root).write c.1 c.2) ((diskSink root).write c.1 c.2) :=
      retraces_call hfirst hrooted hparts hc hnamed
    have ih : Retraces root named first last (Repeats (ClimbsOut first root) Failure.disk)
        (writeAll (diskSink root) calls) (writeAll (diskSink root) calls) :=
      retraces_writeAll hfirst hrooted fun d hd => h d (List.mem_cons_of_mem _ hd)
    unfold writeAll
    refine hcall.bind hfirst .same fun a b hab => ?_
    cases hab with
    | met hclimbs => exact .pure (.met hclimbs)
    | same a =>
      cases a with
      | error e => exact .pure (.same _)
      | ok written =>
        refine ih.bind hfirst .same fun a b hab => ?_
        cases hab with
        | met hclimbs => exact .pure (.met hclimbs)
        | same a =>
          cases a with
          | error f => exact .pure (.same _)
          | ok paths => exact .pure (.same _)

/-- **Files are written the second time as they were the first.** -/
theorem retraces_writeFiles (hfirst : first.Unlinked) (hrooted : first.Rooted)
    {files : GeneratedFiles} (h : NamedFiles named files) :
    Retraces root named first last (Repeats (ClimbsOut first root) Failure.disk)
      (writeFiles (m := StateM FileTree) (diskSink root) files)
      (writeFiles (m := StateM FileTree) (diskSink root) files) := by
  unfold writeFiles
  cases hr : resolved files.entries with
  | error f => exact .pure (.same _)
  | ok calls => exact retraces_writeAll hfirst hrooted (h.calls (resolved_eq_ok_iff.mp hr))

end Retraces

end Output

end ModelStubs
