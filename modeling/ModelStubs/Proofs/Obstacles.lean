/-
# Making directories a second time

Directories that were made are there when they are asked for again, so asking again makes
nothing and succeeds (`Disk.FileTree.makeDirectories_again_of_ok`). A failure comes from
one path that is blocked for good (`Disk.FileTree.Obstacle`): the system does not take it,
its way breaks off, or a file stands at its end. Whatever is added to the tree, the
obstacle stays, and every longer path meets it too.

So asking again fails again, and with the same error, but for one case. The first time the
paths are tried from the longest up, and a file at the end of a shorter path is met when
that path is made; the second time the longest path meets the file on its way. For this
the way has to be open up to the file the second time only: it leads up out of a directory
that was missing the first time (`Disk.FileTree.ClimbsOut`).

Key definitions: `Disk.FileTree.Obstacle`, `Disk.FileTree.Attempt`,
`Disk.FileTree.Attempts`, `Disk.FileTree.ClimbsOut`.
Key theorems: `Disk.FileTree.makeDirectories_run_iff`, `Disk.FileTree.Attempts.obstacle`,
`Disk.FileTree.makeDirectories_again_of_ok`,
`Disk.FileTree.makeDirectories_again_of_error`.
-/
import ModelStubs.Proofs.Ancestors
import ModelStubs.Proofs.Changes
import ModelStubs.Proofs.DeadEnds

namespace ModelStubs
namespace Disk
namespace FileTree

open Output (Reached)

/-! ### Obstacles -/

/-- The path is blocked for good. -/
inductive Obstacle (t : FileTree) (p : Path) : Error → Prop
  | refused {e : Error} : routeOf p = .error e → e ≠ .notFound → Obstacle t p e
  | dead {r : Route} {e : Error} : routeOf p = .ok r → t.Dead r.names e → e ≠ .notFound →
      Obstacle t p e
  | file {r : Route} {place : Names} {c : Content} : routeOf p = .ok r →
      t.Leads linkLimit [] r.names linkLimit place → t.HasFile place c →
      Obstacle t p .alreadyExists

/-- A path that the system does not take has a character that it refuses, or is empty or
too long. -/
theorem routeOf_eq_error {p : Path} {e : Error} (h : routeOf p = .error e) :
    e = .nulInName ∨ e = .notFound ∧ p.text = "" ∨ e = .nameTooLong := by
  unfold routeOf at h
  split at h
  · cases h
    exact .inl rfl
  · split at h
    · next hempty =>
      cases h
      exact .inr (.inl ⟨rfl, by simpa using hempty⟩)
    · split at h
      · cases h
        exact .inr (.inr rfl)
      · cases h

theorem routeOf_ne_alreadyExists {p : Path} : routeOf p ≠ .error .alreadyExists := by
  intro h
  rcases routeOf_eq_error h with he | ⟨he, -⟩ | he
  · cases he
  · cases he
  · cases he

theorem routeOf_ne_notFound {p : Path} (hp : p.text ≠ "") : routeOf p ≠ .error .notFound := by
  intro h
  rcases routeOf_eq_error h with he | ⟨-, hempty⟩ | he
  · cases he
  · exact hp hempty
  · cases he

theorem Halts.ne_alreadyExists {t : FileTree} {base : Names} {n : String} {e : Error}
    (h : t.Halts base n e) : e ≠ .alreadyExists := by
  cases h with
  | notDirectory => simp
  | nameTooLong => simp
  | notFound => simp

theorem BreaksOff.ne_alreadyExists {t : FileTree} {links : Nat} {base : Names}
    {names : List String} {e : Error} (h : t.BreaksOff links base names e) :
    e ≠ .alreadyExists := by
  obtain ⟨_, _, _, _, _, _, hh⟩ := h
  exact hh.ne_alreadyExists

/-- A way that breaks off, but not for a missing name, makes no directory. -/
theorem newDirectory_of_dead {t : FileTree} (ht : t.Unlinked) {r : Route} {e : Error}
    (h : t.Dead r.names e) (he : e ≠ .notFound) : t.newDirectory r = .error e := by
  rw [newDirectory_eq_error_iff ht]
  obtain ⟨xs, n, ys, dir, hnames, hl, hh⟩ := h
  rcases List.eq_nil_or_concat ys with rfl | ⟨zs, last, rfl⟩
  · exact .last hnames hl hh he
  · have hsplit : r.names = (xs ++ n :: zs) ++ [last] := by simp [hnames]
    exact .above hsplit ⟨xs, n, zs, dir, rfl, hl, hh⟩

theorem makeDirectory_error {t u : FileTree} {p : Path} {e : Error}
    (h : t.makeDirectory p = (.error e, u)) : u = t := by
  unfold makeDirectory at h
  split at h
  · cases h
    rfl
  · split at h
    · cases h
      rfl
    · cases h

/-- The path is not made, and it is no directory that is there already. -/
structure Blocked (t : FileTree) (p : Path) (e : Error) : Prop where
  unmade : t.makeDirectory p = (.error e, t)
  missing : e = .alreadyExists → t.isDirectory p = false

namespace Obstacle

variable {t u : FileTree} {p q : Path} {e : Error}

/-- What is added to the tree removes no obstacle. -/
theorem grows (h : Obstacle t p e) (ht : t.Unlinked) (hg : Grows t u) : Obstacle u p e := by
  cases h with
  | refused hr he => exact .refused hr he
  | dead hr hdead he => exact .dead hr (hdead.grows ht he hg) he
  | file hr hl hc =>
    obtain ⟨c', hc'⟩ := hg.file _ _ hc
    exact .file hr (hl.grows hg) hc'

/-- No directory is made at an obstacle. -/
theorem blocked (h : Obstacle t p e) (ht : t.Unlinked) : Blocked t p e := by
  cases h with
  | refused hr he =>
    refine ⟨by simp only [makeDirectory, hr], ?_⟩
    rintro rfl
    exact absurd hr routeOf_ne_alreadyExists
  | dead hr hdead he =>
    refine ⟨by simp only [makeDirectory, hr, newDirectory_of_dead ht hdead he], ?_⟩
    rintro rfl
    exact absurd rfl hdead.ne_alreadyExists
  | @file r place c hr hl hc =>
    have hnot : t.isDirectory p = false := by
      rw [Bool.eq_false_iff]
      intro hd
      obtain ⟨place', hl', hd'⟩ := leads_of_isDirectory ht hd
      rw [← routeOf_eq_ok hr] at hl'
      rw [← hl.unique hl', hc] at hd'
      cases hd'
    refine ⟨?_, fun _ => hnot⟩
    have hnew : t.newDirectory r = .error .alreadyExists := by
      rw [newDirectory_eq_error_iff ht]
      rcases r.names_cases with hnil | ⟨init, last, hnames⟩
      · exact .top hnil
      · rw [hnames] at hl
        obtain ⟨mid, dir, hinit, hlast⟩ := hl.split rfl
        have hmid := hinit.rest_eq ht
        subst hmid
        have hdir := hlast.start.1
        by_cases hspecial : last = "." ∨ last = ".."
        · exact .special hnames hinit hdir hspecial
        · obtain ⟨hhere, hup⟩ := not_or.mp hspecial
          obtain ⟨hshort, -⟩ := (hlast.start.2.resolve_left hhere).resolve_left hup
          have hplace := hlast.place_eq ht (fun m hm => by
            rw [List.mem_singleton.mp hm]
            exact ⟨hhere, hup⟩)
          rw [hplace] at hc
          exact .taken hnames hinit ⟨hdir, hhere, hup, hshort⟩ hc
    simp only [makeDirectory, hr, hnew]

/-- Every longer path meets the obstacle: its way breaks off there, if not before. -/
theorem longer (h : Obstacle t p e) (hpq : Extends q p) {r : Route} (hr : routeOf q = .ok r) :
    Obstacle t q e ∨ e = .alreadyExists ∧ Obstacle t q .notDirectory ∧
      ∃ place c, t.Leads linkLimit [] (Route.of p.text).names linkLimit place ∧
        t.HasFile place c := by
  obtain ⟨s, hs⟩ := hpq.text
  obtain ⟨ns, hne, hnames⟩ := hpq.names
  have hroute := routeOf_eq_ok hr
  cases h with
  | refused hp he =>
    exfalso
    by_cases hempty : p.text = ""
    · have hnul : routeOf p = .error .notFound := by simp [routeOf, hempty]
      rw [hnul] at hp
      cases hp
      exact he rfl
    · rw [routeOf_of_append hs hempty hr] at hp
      cases hp
  | dead hp hdead he =>
    refine .inl (.dead hr ?_ he)
    rw [hroute, hnames, ← routeOf_eq_ok hp]
    exact hdead.append ns
  | @file r' place c hp hl hc =>
    rw [routeOf_eq_ok hp] at hl
    obtain ⟨n, ns, rfl⟩ := List.exists_cons_of_ne_nil hne
    refine .inr ⟨rfl, .dead hr ?_ (by simp), place, c, hl, hc⟩
    rw [hroute, hnames]
    exact dead_of_file hl hc n ns

end Obstacle

/-- What is blocked, but not for a missing name, is blocked for good. -/
theorem Blocked.obstacle {t : FileTree} (ht : t.Unlinked) {p : Path} {e : Error}
    (h : Blocked t p e) (he : e ≠ .notFound) : Obstacle t p e := by
  obtain ⟨hmake, hmissing⟩ := h
  unfold makeDirectory at hmake
  split at hmake
  · next hr =>
    cases hmake
    exact .refused hr he
  · next r hr =>
    split at hmake
    · next hnew =>
      cases hmake
      cases (newDirectory_eq_error_iff ht).mp hnew with
      | top hnil =>
        have hdir : t.isDirectory p = true :=
          isDirectory_of_leads hr (by rw [hnil]; exact .done) (by simp [FileTree.get?])
        rw [hmissing rfl] at hdir
        cases hdir
      | @above init last _ hnames hdead =>
        refine .dead hr ?_ he
        rw [hnames]
        exact hdead.append _
      | @last init last dir _ hnames hl hh _ =>
        exact .dead hr ⟨init, last, [], dir, hnames, hl, hh⟩ he
      | @special init last dir hnames hl hd hspecial =>
        -- the directory itself and the one above it are there
        have hdir : t.isDirectory p = true := by
          rcases hspecial with rfl | rfl
          · refine isDirectory_of_leads hr ?_ hd
            rw [hnames]
            exact hl.append (.here hd .done)
          · refine isDirectory_of_leads hr ?_ (hl.directory_up ht hd)
            rw [hnames]
            exact hl.append (.up hd .done)
        rw [hmissing rfl] at hdir
        cases hdir
      | @taken init last dir i hnames hl henter hi =>
        have hlead : t.Leads linkLimit [] r.names linkLimit (dir ++ [last]) := by
          rw [hnames]
          exact hl.append (.item henter hi .done)
        cases i with
        | file c => exact .file hr hlead hi
        | directory =>
          rw [isDirectory_of_leads hr hlead hi] at hmissing
          cases hmissing rfl
    · cases hmake

/-! ### The run of a request for directories -/

/-- One attempt to make a directory that may be there. -/
inductive Attempt (t : FileTree) (p : Path) : Except Error Unit → FileTree → Prop
  | made {u : FileTree} : t.makeDirectory p = (.ok (), u) → Attempt t p (.ok ()) u
  | there : t.isDirectory p = true → Attempt t p (.ok ()) t
  | blocked {e : Error} : Blocked t p e → Attempt t p (.error e) t

/-- Attempts to make directories from the first path up, until one that need not wait for
those above it, and from there down again. -/
inductive Attempts (t : FileTree) : List Path → Except Error Unit → FileTree → Prop
  | nil : Attempts t [] (.ok ()) t
  | top {p : Path} {above : List Path} : p.text = "" → Attempts t (p :: above) (.ok ()) t
  | first {p : Path} {above : List Path} {result : Except Error Unit} {u : FileTree} :
      p.text ≠ "" → Attempt t p result u → result ≠ .error .notFound →
      Attempts t (p :: above) result u
  | stuck {p : Path} {above : List Path} {e : Error} {u : FileTree} : p.text ≠ "" →
      t.makeDirectory p = (.error .notFound, t) → Attempts t above (.error e) u →
      Attempts t (p :: above) (.error e) u
  | second {p : Path} {above : List Path} {result : Except Error Unit} {u v : FileTree} :
      p.text ≠ "" → t.makeDirectory p = (.error .notFound, t) → Attempts t above (.ok ()) u →
      Attempt u p result v → Attempts t (p :: above) result v

/-- The request for a directory that may be there. -/
def attempt (p : Path) : StateM FileTree (Except Error Unit) := do
  match ← Access.makeDirectory p with
  | .ok () => return .ok ()
  | .error e => unlessDirectory p e

/-- The error is passed over if it says that something exists and that is a directory. -/
theorem unlessDirectory_run {t : FileTree} {p : Path} (e : Error) :
    (unlessDirectory (m := StateM FileTree) p e).run t =
      if e = .alreadyExists ∧ t.isDirectory p = true then (.ok (), t) else (.error e, t) := by
  have hthere : (Access.isDirectory (m := StateM FileTree) p).run t = (t.isDirectory p, t) := rfl
  unfold unlessDirectory
  by_cases he : e = .alreadyExists
  · subst he
    rw [if_pos rfl, StateT.run_bind, hthere]
    cases t.isDirectory p with
    | true => rfl
    | false => rfl
  · rw [if_neg he, if_neg fun h => he h.1]
    rfl

theorem attempt_run_iff {t u : FileTree} {p : Path} {result : Except Error Unit} :
    (attempt p).run t = (result, u) ↔ Attempt t p result u := by
  have hask : (Access.makeDirectory (m := StateM FileTree) p).run t = t.makeDirectory p := rfl
  unfold attempt
  rw [StateT.run_bind, hask]
  constructor
  · intro h
    rcases hmake : t.makeDirectory p with ⟨e | _, v⟩
    · have hv := makeDirectory_error hmake
      subst hv
      rw [hmake] at h
      have h : (unlessDirectory (m := StateM FileTree) p e).run v = (result, u) := h
      rw [unlessDirectory_run] at h
      split at h
      · next hd =>
        cases h
        exact .there hd.2
      · next hd =>
        cases h
        exact .blocked ⟨hmake, fun he => by simpa [he] using hd⟩
    · rw [hmake] at h
      cases h
      exact .made hmake
  · intro h
    cases h with
    | made hmake =>
      rw [hmake]
      rfl
    | there hd =>
      rw [makeDirectory_of_isDirectory hd]
      exact (unlessDirectory_run _).trans (if_pos ⟨rfl, hd⟩)
    | @blocked e hb =>
      rw [hb.unmade]
      refine (unlessDirectory_run e).trans (if_neg ?_)
      rintro ⟨he, hd⟩
      rw [hb.missing he] at hd
      cases hd

/-- An attempt that does not fail for something missing did not find it missing. -/
theorem Attempt.not_missing {t u : FileTree} {p : Path} {result : Except Error Unit}
    (h : Attempt t p result u) (hne : result ≠ .error .notFound) :
    t.makeDirectory p ≠ (.error .notFound, t) := by
  intro hmissing
  cases h with
  | made hmake =>
    rw [hmissing] at hmake
    cases hmake
  | there hd =>
    rw [makeDirectory_of_isDirectory hd] at hmissing
    cases hmissing
  | blocked hb =>
    rw [hb.unmade] at hmissing
    cases hmissing
    exact hne rfl

/-- Nothing is asked for above the empty path. -/
theorem makeDirectories_top {p : Path} (hp : p.text = "") (t : FileTree) (above : List Path) :
    (makeDirectories (m := StateM FileTree) (p :: above)).run t = (.ok (), t) := by
  unfold makeDirectories
  rw [if_pos (by simpa using hp)]
  rfl

/-- If something is missing on the way then those above are asked for first. -/
theorem makeDirectories_of_missing {t : FileTree} {p : Path} (hp : p.text ≠ "")
    (h : t.makeDirectory p = (.error .notFound, t)) (above : List Path) :
    (makeDirectories (m := StateM FileTree) (p :: above)).run t =
      match (makeDirectories (m := StateM FileTree) above).run t with
      | (.error e, u) => (.error e, u)
      | (.ok (), u) => (attempt p).run u := by
  have hask : (Access.makeDirectory (m := StateM FileTree) p).run t = t.makeDirectory p := rfl
  rw [makeDirectories, if_neg (by simpa using hp), StateT.run_bind, hask, h]
  show StateT.run (makeDirectories above >>= _) t = _
  rw [StateT.run_bind]
  rcases (makeDirectories (m := StateM FileTree) above).run t with ⟨_ | _, u⟩
  · rfl
  · rfl

/-- If nothing is missing on the way then there is one attempt. -/
theorem makeDirectories_of_not_missing {t : FileTree} {p : Path} (hp : p.text ≠ "")
    (h : t.makeDirectory p ≠ (.error .notFound, t)) (above : List Path) :
    (makeDirectories (m := StateM FileTree) (p :: above)).run t = (attempt p).run t := by
  have hask : (Access.makeDirectory (m := StateM FileTree) p).run t = t.makeDirectory p := rfl
  unfold makeDirectories attempt
  rw [if_neg (by simpa using hp), StateT.run_bind, StateT.run_bind, hask]
  rcases hmake : t.makeDirectory p with ⟨e | _, u⟩
  · have hu := makeDirectory_error hmake
    subst hu
    have he : e ≠ .notFound := by
      rintro rfl
      exact h hmake
    cases e <;> first | rfl | exact absurd rfl he
  · rfl

theorem attempts_of_run {ps : List Path} {t u : FileTree} {result : Except Error Unit}
    (h : (makeDirectories (m := StateM FileTree) ps).run t = (result, u)) :
    Attempts t ps result u := by
  induction ps generalizing result u with
  | nil =>
    cases h
    exact .nil
  | cons p above ih =>
    by_cases hp : p.text = ""
    · rw [makeDirectories_top hp] at h
      cases h
      exact .top hp
    by_cases hmissing : t.makeDirectory p = (.error .notFound, t)
    · rw [makeDirectories_of_missing hp hmissing] at h
      rcases hrun : (makeDirectories (m := StateM FileTree) above).run t with ⟨e | _, v⟩
      · rw [hrun] at h
        cases h
        exact .stuck hp hmissing (ih hrun)
      · rw [hrun] at h
        exact .second hp hmissing (ih hrun) (attempt_run_iff.mp h)
    · rw [makeDirectories_of_not_missing hp hmissing] at h
      have hattempt := attempt_run_iff.mp h
      refine .first hp hattempt ?_
      rintro rfl
      cases hattempt with
      | blocked hb => exact hmissing hb.unmade

theorem Attempts.run {ps : List Path} {t u : FileTree} {result : Except Error Unit}
    (h : Attempts t ps result u) :
    (makeDirectories (m := StateM FileTree) ps).run t = (result, u) := by
  induction h with
  | nil => rfl
  | top hp => exact makeDirectories_top hp _ _
  | first hp hattempt hne =>
    rw [makeDirectories_of_not_missing hp (hattempt.not_missing hne)]
    exact attempt_run_iff.mpr hattempt
  | stuck hp hmissing _ ih => rw [makeDirectories_of_missing hp hmissing, ih]
  | second hp hmissing _ hattempt ih =>
    rw [makeDirectories_of_missing hp hmissing, ih]
    exact attempt_run_iff.mpr hattempt

/-- A request for directories is a run of attempts. -/
theorem makeDirectories_run_iff {ps : List Path} {t u : FileTree} {result : Except Error Unit} :
    (makeDirectories (m := StateM FileTree) ps).run t = (result, u) ↔
      Attempts t ps result u := ⟨attempts_of_run, Attempts.run⟩

/-- Attempts make directories and nothing else, whether or not they succeed. -/
theorem Attempt.more {t u : FileTree} {p : Path} {result : Except Error Unit}
    (h : Attempt t p result u) : MoreDirectories t u := by
  cases h with
  | made hmake => exact moreDirectories_makeDirectory hmake
  | there _ => exact .refl t
  | blocked _ => exact .refl t

theorem Attempts.more {t u : FileTree} {ps : List Path} {result : Except Error Unit}
    (h : Attempts t ps result u) : MoreDirectories t u := by
  induction h with
  | nil => exact .refl t
  | top _ => exact .refl t
  | first _ hattempt _ => exact hattempt.more
  | stuck _ _ _ ih => exact ih
  | second _ _ _ hattempt ih => exact ih.trans hattempt.more

/-! ### After a success -/

/-- A new directory is put under the last name of its route, in the directory that the
names before lead to. -/
theorem leads_of_newDirectory {t : FileTree} (ht : t.Unlinked) {r : Route} {place : Names}
    (h : t.newDirectory r = .ok place) : ∃ init last dir, r.names = init ++ [last] ∧
      t.Leads linkLimit [] init linkLimit dir ∧ t.Enters dir last ∧ place = dir ++ [last] := by
  unfold newDirectory at h
  split at h
  · cases h
  · next last hlast =>
    split at h
    · cases h
    · next dir last' rest hparent =>
      obtain ⟨hl, hdir, rfl⟩ := followParent_eq_ok hparent
      have hrest := hl.rest_eq ht
      subst hrest
      split at h
      · cases h
      · next hspecial =>
        obtain ⟨hhere, hup⟩ := not_or.mp hspecial
        split at h
        · cases h
        · next hshort =>
          split at h
          · cases h
            exact ⟨_, last', dir, getLast?_eq_some hlast, hl,
              ⟨hdir, hhere, hup, Nat.not_lt.mp hshort⟩, rfl⟩
          · cases h

/-- A directory that was made is there. -/
theorem isDirectory_of_makeDirectory {t u : FileTree} (ht : t.Unlinked) {p : Path}
    (h : t.makeDirectory p = (.ok (), u)) : u.isDirectory p = true := by
  unfold makeDirectory at h
  split at h
  · cases h
  · next r hr =>
    split at h
    · cases h
    · next place hn =>
      cases h
      obtain ⟨hne, hnone⟩ := newDirectory_eq_ok hn
      have hg := (moreDirectories_put hne hnone).grows
      have hself := get?_put_self (t := t) hne (.item .directory)
      obtain ⟨init, last, dir, hnames, hl, he, rfl⟩ := leads_of_newDirectory ht hn
      refine isDirectory_of_leads hr ?_ hself
      rw [hnames]
      exact (hl.grows hg).append
        (.item { he with directory := hg.directory _ he.directory } hself .done)

theorem Attempt.isDirectory {t u : FileTree} (ht : t.Unlinked) {p : Path}
    (h : Attempt t p (.ok ()) u) : u.isDirectory p = true := by
  cases h with
  | made hmake => exact isDirectory_of_makeDirectory ht hmake
  | there hd => exact hd

/-- After a success the first path is reached. -/
theorem Attempts.reached {t u : FileTree} (ht : t.Unlinked) {p : Path} {above : List Path}
    (h : Attempts t (p :: above) (.ok ()) u) : Reached p u := by
  cases h with
  | top hp => exact .inl hp
  | first _ hattempt _ => exact .inr (hattempt.isDirectory ht)
  | second _ _ habove hattempt => exact .inr (hattempt.isDirectory (habove.more.grows.unlinked ht))

/-- If directories were made then the first path is reached. -/
theorem reached_of_makeDirectories {t u : FileTree} (ht : t.Unlinked) {p : Path}
    {above : List Path}
    (h : (makeDirectories (m := StateM FileTree) (p :: above)).run t = (.ok (), u)) :
    Reached p u := (makeDirectories_run_iff.mp h).reached ht

/-- Nothing is made above a path that is reached. -/
theorem makeDirectories_of_reached {t : FileTree} {p : Path} (h : Reached p t)
    (above : List Path) :
    (makeDirectories (m := StateM FileTree) (p :: above)).run t = (.ok (), t) := by
  rcases h with hp | hd
  · exact makeDirectories_top hp t above
  · exact makeDirectories_of_isDirectory hd above

/-! ### After a failure -/

/-- The names of a path lead to a directory if the next path above it is reached, but for
the last name. -/
theorem leads_of_above {t : FileTree} (ht : t.Unlinked) {p q : Path} (h : Above q p)
    (hq : Reached q t) : ∃ init last dir, (Route.of p.text).names = init ++ [last] ∧
      t.Leads linkLimit [] init linkLimit dir ∧ t.get? dir = some (.item .directory) := by
  obtain ⟨dots, last, hnames, hdots⟩ := h.names
  obtain ⟨dir, hl, hd⟩ : ∃ dir, t.Leads linkLimit [] (Route.of q.text).names linkLimit dir ∧
      t.get? dir = some (.item .directory) := by
    rcases hq with hempty | hd
    · have hnil : (Route.of q.text).names = [] := by
        rw [hempty]
        decide
      rw [hnil]
      exact ⟨[], .done, rfl⟩
    · exact leads_of_isDirectory ht hd
  refine ⟨(Route.of q.text).names ++ dots, last, dir, by rw [hnames, List.append_assoc],
    hl.append ?_, hd⟩
  clear hnames
  induction dots with
  | nil => exact .done
  | cons d dots ih =>
    rw [hdots d List.mem_cons_self]
    exact .here hd (ih fun d hm => hdots d (List.mem_cons_of_mem _ hm))

/-- If a directory cannot be made because something is missing then that is on the way to
it. -/
theorem dead_of_makeDirectory {t : FileTree} (ht : t.Unlinked) {p : Path} (hp : p.text ≠ "")
    (h : t.makeDirectory p = (.error .notFound, t)) : routeOf p = .ok (Route.of p.text) ∧
      ∃ init last, (Route.of p.text).names = init ++ [last] ∧ t.Dead init .notFound := by
  unfold makeDirectory at h
  split at h
  · next e hr =>
    cases h
    exact absurd hr (routeOf_ne_notFound hp)
  · next r hr =>
    rw [← routeOf_eq_ok hr]
    split at h
    · next hnew =>
      cases h
      cases (newDirectory_eq_error_iff ht).mp hnew with
      | above hnames hdead => exact ⟨hr, _, _, hnames, hdead⟩
      | last _ _ _ hne => exact absurd rfl hne
    · cases h

/-- If the next path above is reached then nothing is missing on the way. -/
theorem Blocked.ne_notFound {t : FileTree} (ht : t.Unlinked) {p q : Path} {e : Error}
    (h : Blocked t p e) (hp : p.text ≠ "") (habove : Above q p) (hq : Reached q t) :
    e ≠ .notFound := by
  rintro rfl
  obtain ⟨init, last, dir, hnames, hl, -⟩ := leads_of_above ht habove hq
  obtain ⟨-, init', last', hnames', hdead⟩ := dead_of_makeDirectory ht hp h.unmade
  rw [hnames] at hnames'
  rw [← (List.append_inj' hnames' rfl).1] at hdead
  exact hdead.not_leads hl

/-- A failure comes from one of the paths. If that is not the first then the first waited
for those above it. -/
theorem Attempts.obstacle {t u : FileTree} (ht : t.Unlinked) {ps : List Path}
    {result : Except Error Unit} {e : Error} (h : Attempts t ps result u)
    (hresult : result = .error e) (hclimbs : Climbs ps) : ∃ p above, ps = p :: above ∧
      (Obstacle u p e ∨ p.text ≠ "" ∧ t.makeDirectory p = (.error .notFound, t) ∧
        ∃ q ∈ above, Obstacle u q e) := by
  induction h with
  | nil => cases hresult
  | top _ => cases hresult
  | @first p above result u _ hattempt hne =>
    subst hresult
    cases hattempt with
    | blocked hb => exact ⟨p, above, rfl, .inl (hb.obstacle ht fun he => hne (by rw [he]))⟩
  | @stuck p above e' u hp hmake habove ih =>
    cases hresult
    cases hclimbs with
    | top _ => cases habove
    | step _ hrest =>
      obtain ⟨q, rest, hsame, hq⟩ := ih rfl hrest
      refine ⟨p, _, rfl, .inr ⟨hp, hmake, ?_⟩⟩
      rw [hsame]
      rcases hq with hq | ⟨-, -, b, hb, hq⟩
      · exact ⟨q, List.mem_cons_self, hq⟩
      · exact ⟨b, List.mem_cons_of_mem _ hb, hq⟩
  | @second p above result u v hp hmake habove hattempt _ =>
    subst hresult
    have hu := habove.more.grows.unlinked ht
    cases hattempt with
    | blocked hb =>
      refine ⟨p, above, rfl, .inl (hb.obstacle hu ?_)⟩
      cases hclimbs with
      | top htop =>
        obtain ⟨-, init, last, hnames, -⟩ := dead_of_makeDirectory ht hp hmake
        rw [htop.resolve_left hp] at hnames
        simp at hnames
      | step hpq _ => exact hb.ne_notFound hu hp hpq (habove.reached ht)

/-! ### Asking again -/

theorem Obstacle.ne_notFound {t : FileTree} {p : Path} {e : Error} (h : Obstacle t p e) :
    e ≠ .notFound := by
  cases h with
  | refused _ he => exact he
  | dead _ _ he => exact he
  | file => simp

theorem Obstacle.text_ne {t : FileTree} {p : Path} {e : Error} (h : Obstacle t p e) :
    p.text ≠ "" := by
  intro hempty
  have hroute : routeOf p = .error .notFound := by simp [routeOf, hempty]
  cases h with
  | refused hr he =>
    rw [hroute] at hr
    cases hr
    exact he rfl
  | dead hr =>
    rw [hroute] at hr
    cases hr
  | file hr =>
    rw [hroute] at hr
    cases hr

/-- Nothing is made if there is an obstacle to the first path. -/
theorem makeDirectories_of_obstacle {t : FileTree} (ht : t.Unlinked) {p : Path} {e : Error}
    (h : Obstacle t p e) (above : List Path) :
    (makeDirectories (m := StateM FileTree) (p :: above)).run t = (.error e, t) := by
  have hresult : (.error e : Except Error Unit) ≠ .error .notFound := by
    intro he
    exact h.ne_notFound (by simpa using he)
  exact makeDirectories_run_iff.mpr (.first h.text_ne (.blocked (h.blocked ht)) hresult)

/-- **Directories that were made are not made again.** -/
theorem makeDirectories_again_of_ok {t u w : FileTree} (ht : t.Unlinked) {ps : List Path}
    (h : (makeDirectories (m := StateM FileTree) ps).run t = (.ok (), u)) (hg : Grows u w) :
    (makeDirectories (m := StateM FileTree) ps).run w = (.ok (), w) := by
  cases ps with
  | nil => rfl
  | cons p above =>
    exact makeDirectories_of_reached ((reached_of_makeDirectories ht h).grows hg) above

/-- The path leads up out of a directory that is missing. -/
def ClimbsOut (t : FileTree) (p : Path) : Prop :=
  ∃ xs ys, (Route.of p.text).names = xs ++ ".." :: ys ∧ t.get? (landing [] xs) = none

/-- Names that lead away from below a place go up from that place. -/
theorem exists_up_of_landing {q : Names} : ∀ {ys : List String} {base : Names}, q <+: base →
    ¬ q <+: landing base ys → ∃ xs zs, ys = xs ++ ".." :: zs ∧ landing base xs = q
  | [], base, hq, hn => absurd hq hn
  | y :: ys, base, hq, hn => by
    rw [landing] at hn
    -- the way to the next place is put before the way from there on
    have hgo : ∀ next, q <+: next → landing base [y] = next →
        ¬ q <+: landing next ys → ∃ xs zs, y :: ys = xs ++ ".." :: zs ∧ landing base xs = q := by
      intro next hnext hland hn
      obtain ⟨xs, zs, hys, hxs⟩ := exists_up_of_landing hnext hn
      refine ⟨y :: xs, zs, by rw [hys, List.cons_append], ?_⟩
      have happend := landing_append base [y] xs
      rw [hland, hxs] at happend
      exact happend
    by_cases hhere : y = "."
    · rw [if_pos hhere] at hn
      exact hgo base hq (by simp [landing, hhere]) hn
    · rw [if_neg hhere] at hn
      by_cases hup : y = ".."
      · rw [if_pos hup] at hn
        by_cases hsame : q = base
        · exact ⟨[], ys, by rw [hup, List.nil_append], hsame.symm⟩
        · refine hgo base.dropLast ?_ (by simp [landing, hup]) hn
          obtain ⟨init, last, rfl⟩ : ∃ init last, base = init ++ [last] := by
            rcases List.eq_nil_or_concat base with hnil | ⟨init, last, hbase⟩
            · rw [hnil, List.prefix_nil] at hq
              exact absurd (hq.trans hnil.symm) hsame
            · exact ⟨init, last, by rw [hbase, List.concat_eq_append]⟩
          rw [List.dropLast_concat]
          exact (List.prefix_concat_iff.mp hq).resolve_left hsame
      · rw [if_neg hup] at hn
        exact hgo (base ++ [y]) (hq.trans (List.prefix_append _ _)) (by simp [landing, hhere, hup]) hn

/-- Names that end at a file go on beyond the names of a directory and the next one, if both
begin one list of names: no way goes on from a file. -/
theorem exists_rest_of_file {t : FileTree} (ht : t.Unlinked) {xs more names ns : List String}
    {n : String} {dir place : Names} {c : Content} (hxs : t.Leads linkLimit [] xs linkLimit dir)
    (hd : t.get? dir = some (.item .directory)) (hplace : place = landing [] names)
    (hc : t.HasFile place c) (hsplit : (xs ++ [n]) ++ more = names ++ ns) :
    ∃ zs, names = (xs ++ [n]) ++ zs := by
  rcases List.append_eq_append_iff.mp hsplit with ⟨zs, hzs, -⟩ | ⟨zs, hzs, -⟩
  · exact ⟨zs, hzs⟩
  · rcases List.eq_nil_or_concat zs with rfl | ⟨zs, m, rfl⟩
    · exact ⟨[], by rw [hzs, List.append_nil, List.append_nil]⟩
    · exfalso
      rw [List.concat_eq_append, ← List.append_assoc] at hzs
      obtain ⟨hfront, -⟩ := List.append_inj' hzs rfl
      obtain ⟨mid, base, hbase, hrest⟩ := hxs.split hfront
      have hsame : base = place := by rw [hbase.place_eq_landing ht, hplace]
      have hdir : t.get? base = some (.item .directory) := by
        cases zs with
        | nil =>
          cases hrest
          exact hd
        | cons z zs => exact hrest.start.1
      rw [hsame, hc] at hdir
      cases hdir

/-- If a path waited for those above it, and one of them ends at a file, then its way leads
up out of a missing directory before it comes to the file. -/
theorem climbsOut_of_file {t u : FileTree} (ht : t.Unlinked) (hr : t.Rooted) (hu : u.Unlinked)
    {p q : Path} (hpq : Extends p q) (hp : p.text ≠ "")
    (hmake : t.makeDirectory p = (.error .notFound, t)) {place : Names} {c : Content}
    (hl : u.Leads linkLimit [] (Route.of q.text).names linkLimit place)
    (hc : t.HasFile place c) : ClimbsOut t p := by
  have hplace := hl.place_eq_landing hu
  obtain ⟨ns, -, hnames⟩ := hpq.names
  obtain ⟨-, init, last, hinit, xs, n, ys, dir, rfl, hxs, hhalts⟩ := dead_of_makeDirectory ht hp hmake
  cases hhalts with
  | notFound he hnone =>
    have hmissing : landing [] (xs ++ [n]) = dir ++ [n] := by
      rw [landing_append, ← hxs.place_eq_landing ht]
      simp [landing, he.not_here, he.not_up]
    have hsplit : (xs ++ [n]) ++ (ys ++ [last]) = (Route.of q.text).names ++ ns := by
      rw [← hnames, hinit]
      simp
    obtain ⟨zs, hzs⟩ := exists_rest_of_file ht hxs he.directory hplace hc hsplit
    rw [hzs, landing_append, hmissing] at hplace
    have haway : ¬ dir ++ [n] <+: landing (dir ++ [n]) zs := by
      rw [← hplace]
      rintro ⟨rest, rfl⟩
      by_cases hrest : rest = []
      · rw [hrest, List.append_nil, HasFile, hnone] at hc
        cases hc
      · rw [hr.directory_of_prefix hrest hc] at hnone
        cases hnone
    obtain ⟨ups, downs, rfl, hups⟩ := exists_up_of_landing List.prefix_rfl haway
    refine ⟨(xs ++ [n]) ++ ups, downs ++ ns, by rw [hnames, hzs]; simp, ?_⟩
    rw [landing_append, hmissing, hups]
    exact hnone

/-- **A failure to make directories comes again**, with the same error unless the path
leads out of a missing directory. -/
theorem makeDirectories_again_of_error {t u w : FileTree} (ht : t.Unlinked) (hr : t.Rooted)
    {ps : List Path} (hclimbs : Climbs ps) {e : Error}
    (h : (makeDirectories (m := StateM FileTree) ps).run t = (.error e, u)) (hg : Grows u w) :
    ∃ e', (makeDirectories (m := StateM FileTree) ps).run w = (.error e', w) ∧
      (e' = e ∨ e = .alreadyExists ∧ e' = .notDirectory ∧ ∃ p ∈ ps, ClimbsOut t p) := by
  have hattempts := makeDirectories_run_iff.mp h
  have hu := hattempts.more.grows.unlinked ht
  have hw := hg.unlinked hu
  obtain ⟨p, above, rfl, hp | ⟨hp, hmake, q, hq, hblocked⟩⟩ := hattempts.obstacle ht rfl hclimbs
  · exact ⟨e, makeDirectories_of_obstacle hw (hp.grows hu hg) above, .inl rfl⟩
  · have hpq := hclimbs.extends q hq
    have hroute := (dead_of_makeDirectory ht hp hmake).1
    rcases hblocked.longer hpq hroute with hsame | ⟨rfl, hother, place, c, hl, hc⟩
    · exact ⟨e, makeDirectories_of_obstacle hw (hsame.grows hu hg) above, .inl rfl⟩
    · refine ⟨.notDirectory, makeDirectories_of_obstacle hw (hother.grows hu hg) above,
        .inr ⟨rfl, rfl, p, List.mem_cons_self, ?_⟩⟩
      exact climbsOut_of_file ht hr hu hpq hp hmake hl (hattempts.more.hasFile_iff.mp hc)

end FileTree
end Disk
end ModelStubs
