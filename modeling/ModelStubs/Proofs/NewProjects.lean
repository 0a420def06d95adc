/-
# Starting a project

`init` looks for the settings file, makes the model directory, writes the example there
and then the settings, in this order. Each step that finds something in its place leaves
it, and the first step that fails is the last. `Project.Starts` lists the ways that a run
can go, with the trees between the steps.

A run that ends well leaves a project that loads: the settings are those that were asked
for, read back from the indented text, and the example is in the model directory that
they name. This holds in any tree, as a written file is found through all links.

In a tree without links a run spares what was there, however it ends
(`Project.Spares`). A file is only written where none was, but for settings that are to be
replaced, and a directory is only made where the path of the model directory says so.
For the settings this rests on the directory of the project being there: if its path
led nowhere at first, making the model directory could open it.

Key definitions: `Project.Starts`, `Project.Brings`, `Project.Spares`.
Key theorems: `Project.starts_of_run`, `Project.ofText_settings_text`,
`Project.init_then_load`, `Project.init_spares`.
-/
import ModelStubs.Project.Init
import ModelStubs.Proofs.Confinement
import ModelStubs.Proofs.Json.IndentedTexts
import ModelStubs.Proofs.LinkedWrites
import ModelStubs.Proofs.PathBytes
import ModelStubs.Proofs.RunTwice

namespace ModelStubs

namespace Disk

theorem Path.place_child {p : Path} {n : String} (hn : IsName n) :
    (p.child n).place = p.place ++ [n] := by
  have hbelow : p.child n = p.below [n] := rfl
  rw [hbelow, place_below (Project.isName_singleton hn)]

namespace FileTree

/-- A path below a directory that is there leads to what stands at its place. -/
theorem holds_child {t : FileTree} (ht : t.Unlinked) {dir : Path} (hdir : t.isDirectory dir = true)
    {n : String} (hn : IsName n) (hshort : n.utf8ByteSize ≤ nameLimit) {r : Route}
    (hr : routeOf (dir.child n) = .ok r) {node : Node}
    (hnode : t.get? (dir.child n).place = some node) : t.holds (dir.child n) = true := by
  obtain ⟨place, hresolve, hd⟩ := isDirectory_iff.mp hdir
  have hplace := place_of_resolve ht hresolve
  obtain ⟨r', rest, hr', hl⟩ := resolve_eq_ok_iff.mp hresolve
  obtain ⟨more, hsteps, hmore⟩ : ∃ more,
      r'.steps = (Route.of dir.text).names ++ more ∧ ∀ m ∈ more, m = "." := by
    rw [routeOf_eq_ok hr', Route.steps]
    split
    · exact ⟨["."], rfl, by simp⟩
    · exact ⟨[], by simp, by simp⟩
  obtain ⟨mid, dir', hfront, hback⟩ := hl.split hsteps
  obtain rfl := hback.in_place ht hmore
  rw [Path.place_child hn, ← hplace] at hnode
  obtain ⟨i, rfl⟩ : ∃ i, node = .item i := by
    cases node with
    | item i => exact ⟨i, rfl⟩
    | link target => exact absurd hnode (ht _ _)
  have henters : t.Enters place n := ⟨hd, hn.not_here, hn.not_up, hshort⟩
  have hroute : r.steps = (Route.of dir.text).names ++ [n] := by
    have hslash : (Route.of (dir.child n).text).slash = false := by
      rw [Path.child_eq_join]
      exact slash_join hn.plainParts
    have hnames : (Route.of (dir.child n).text).names = (Route.of dir.text).names ++ [n] := by
      rw [Path.child, names_join hn.isAbsolute, hn.names]
    rw [routeOf_eq_ok hr, Route.steps, hslash, if_neg (by decide), hnames]
  refine holds_iff.mpr ⟨_, i, resolve_eq_ok_iff.mpr ⟨r, mid, hr, ?_⟩, hnode⟩
  rw [hroute]
  exact hfront.append (.item henters hnode .done)

/-- A text is written to a path that is writable. -/
theorem Writable.writeText {t : FileTree} {p : Path} {place : Names} (h : t.Writable p place)
    (ht : t.Unlinked) (s : String) :
    t.writeText p s = (.ok (), t.put place (.item (.file (.text s)))) :=
  (writeText_eq_ok_iff ht).mpr ⟨place, h, rfl⟩

/-- In a tree without links a path leads to nothing if nothing stands at its place. -/
theorem holds_eq_false {t : FileTree} (ht : t.Unlinked) {p : Path} (h : t.get? p.place = none) :
    t.holds p = false := by
  rw [Bool.eq_false_iff]
  intro hholds
  obtain ⟨place, i, hresolve, hi⟩ := holds_iff.mp hholds
  rw [place_of_resolve ht hresolve, h] at hi
  cases hi

end FileTree
end Disk

namespace Project

open Disk (Path FileTree Names Content Node IsName)
open Disk.FileTree (Grows)
open Model (Document)

variable {a : InitArguments} {cwd : Path} {t u v w : FileTree}

/-! ### The ways a run goes -/

/-- The file of the example. -/
def exampleFile (a : InitArguments) (cwd : Path) : Path :=
  (cwd.join ⟨a.modelDir⟩).child exampleName

/-- The model directory is there, or it is made with those above it. -/
inductive DirectoryStep (a : InitArguments) (cwd : Path) (t : FileTree) :
    Except Disk.Error Unit → FileTree → Prop
  | there : t.holds (cwd.join ⟨a.modelDir⟩) = true → DirectoryStep a cwd t (.ok ()) t
  | made {result : Except Disk.Error Unit} {u : FileTree} :
      t.holds (cwd.join ⟨a.modelDir⟩) = false →
      (Disk.makeDirectories (m := StateM FileTree) (cwd.join ⟨a.modelDir⟩).ancestors).run t =
        (result, u) → DirectoryStep a cwd t result u

/-- The example is there, or it is written. -/
inductive ExampleStep (a : InitArguments) (cwd : Path) (t : FileTree) :
    Except Disk.Error Unit → FileTree → Prop
  | there : t.holds (exampleFile a cwd) = true → ExampleStep a cwd t (.ok ()) t
  | written {result : Except Disk.Error Unit} {u : FileTree} :
      t.holds (exampleFile a cwd) = false →
      t.writeText (exampleFile a cwd) exampleModel = (result, u) → ExampleStep a cwd t result u

/-- The settings are to be written: they are not there, or they are to be replaced. -/
def Wanted (a : InitArguments) (cwd : Path) (t : FileTree) : Prop :=
  a.force = true ∨ t.holds (Settings.file cwd) = false

/-- How a run on the tree `t` ends and with which tree. -/
inductive Starts (a : InitArguments) (cwd : Path) (t : FileTree) : Option Refusal → FileTree → Prop
  | kept : a.force = false → t.holds (Settings.file cwd) = true → Starts a cwd t none t
  | noDirectory {e : Disk.Error} {u : FileTree} : Wanted a cwd t →
      DirectoryStep a cwd t (.error e) u → Starts a cwd t (some (.disk e)) u
  | noExample {e : Disk.Error} {v u : FileTree} : Wanted a cwd t →
      DirectoryStep a cwd t (.ok ()) v → ExampleStep a cwd v (.error e) u →
      Starts a cwd t (some (.disk e)) u
  | noSettings {e : Disk.Error} {v w u : FileTree} : Wanted a cwd t →
      DirectoryStep a cwd t (.ok ()) v → ExampleStep a cwd v (.ok ()) w →
      w.writeText (Settings.file cwd) a.settings.text = (.error e, u) →
      Starts a cwd t (some (.disk e)) u
  | done {v w u : FileTree} : Wanted a cwd t → DirectoryStep a cwd t (.ok ()) v →
      ExampleStep a cwd v (.ok ()) w →
      w.writeText (Settings.file cwd) a.settings.text = (.ok (), u) → Starts a cwd t none u

/-- A run of the first step ends with its answer. -/
theorem directoryStep_of_run {result : Except Refusal Report}
    (h : (initDirectory (m := StateM FileTree) (cwd.join ⟨a.modelDir⟩) a.modelDir).run t =
      (result, u)) :
    (∃ e, result = .error (.disk e) ∧ DirectoryStep a cwd t (.error e) u) ∨
      ∃ made, result = .ok made ∧ DirectoryStep a cwd t (.ok ()) u := by
  unfold initDirectory at h
  rw [run_bind, run_holds] at h
  cases hholds : t.holds (cwd.join ⟨a.modelDir⟩) with
  | true =>
    rw [hholds] at h
    cases h
    exact .inr ⟨[], rfl, .there hholds⟩
  | false =>
    rw [hholds] at h
    simp only [Bool.false_eq_true, if_false] at h
    rw [run_bind] at h
    cases hmake : (Disk.makeDirectories (m := StateM FileTree)
        (cwd.join ⟨a.modelDir⟩).ancestors).run t with
    | mk answer v =>
      rw [hmake] at h
      cases answer with
      | error e => cases h; exact .inl ⟨e, rfl, .made hholds hmake⟩
      | ok _ => cases h; exact .inr ⟨_, rfl, .made hholds hmake⟩

/-- A run of the second step ends with its answer. -/
theorem exampleStep_of_run {result : Except Refusal Report}
    (h : (initExample (m := StateM FileTree) (exampleFile a cwd)).run t = (result, u)) :
    (∃ e, result = .error (.disk e) ∧ ExampleStep a cwd t (.error e) u) ∨
      ∃ made, result = .ok made ∧ ExampleStep a cwd t (.ok ()) u := by
  unfold initExample at h
  rw [run_bind, run_holds] at h
  cases hholds : t.holds (exampleFile a cwd) with
  | true =>
    rw [hholds] at h
    cases h
    exact .inr ⟨[], rfl, .there hholds⟩
  | false =>
    rw [hholds] at h
    simp only [Bool.false_eq_true, if_false] at h
    rw [run_bind, run_writeText] at h
    cases hwritten : t.writeText (exampleFile a cwd) exampleModel with
    | mk answer v =>
      rw [hwritten] at h
      cases answer with
      | error e => cases h; exact .inl ⟨e, rfl, .written hholds hwritten⟩
      | ok _ => cases h; exact .inr ⟨_, rfl, .written hholds hwritten⟩

/-- Every run goes in one of the ways. -/
theorem starts_of_run {ending : Ending}
    (h : (init (m := StateM FileTree) a cwd).run t = (ending, u)) :
    Starts a cwd t ending.refusal u := by
  unfold init at h
  rw [run_bind, run_holds] at h
  by_cases hkept : (t.holds (Settings.file cwd) && !a.force) = true
  · rw [if_pos hkept] at h
    obtain ⟨hholds, hforce⟩ := Bool.and_eq_true_iff.mp hkept
    cases h
    exact .kept (by simpa using hforce) hholds
  have hwanted : Wanted a cwd t := by
    rw [Bool.and_eq_true_iff, not_and_or] at hkept
    rcases hkept with hholds | hforce
    · exact .inr (by simpa using hholds)
    · exact .inl (by simpa using hforce)
  rw [if_neg hkept, run_bind] at h
  cases hdir : (initDirectory (m := StateM FileTree) (cwd.join ⟨a.modelDir⟩) a.modelDir).run t with
  | mk made v =>
  rw [hdir] at h
  rcases directoryStep_of_run hdir with ⟨e, rfl, hstep⟩ | ⟨made, rfl, hstep⟩
  · cases h
    exact .noDirectory hwanted hstep
  simp only at h
  rw [run_bind] at h
  cases hexample : (initExample (m := StateM FileTree) (exampleFile a cwd)).run v with
  | mk written w =>
  rw [exampleFile, Path.child] at hexample
  rw [hexample] at h
  rcases exampleStep_of_run hexample with ⟨e, rfl, hstep'⟩ | ⟨written, rfl, hstep'⟩
  · cases h
    exact .noExample hwanted hstep hstep'
  simp only at h
  rw [run_bind, run_writeText] at h
  cases hsettings : w.writeText (Settings.file cwd) a.settings.text with
  | mk answer u' =>
  rw [hsettings] at h
  cases answer with
  | error e => cases h; exact .noSettings hwanted hstep hstep' hsettings
  | ok _ => cases h; exact .done hwanted hstep hstep' hsettings

/-! ### Loading what was asked for -/

theorem lawful_settings : Settings.shape.Lawful := by decide

theorem height_settings : Settings.shape.height ≤ Json.nesting := by decide

/-- The text of any settings is read as these settings. -/
theorem ofText_settings_text (s : Settings) : Settings.shape.ofText s.text = .ok s :=
  Json.Shape.ofText_pretty lawful_settings height_settings s

/-- After the second step the example is there. -/
theorem ExampleStep.holds (h : ExampleStep a cwd t (.ok ()) u) :
    u.holds (exampleFile a cwd) = true := by
  cases h with
  | there hholds => exact hholds
  | written _ hwrite =>
    obtain ⟨place, hstored⟩ := Disk.FileTree.stored_of_written hwrite
    exact hstored.holds

/-- **What was asked for is loaded.** The written text of any settings is read back, and
after a run of `init` that was to write them and did not give up, the settings of the
directory load and are those that were asked for, with the example in the model directory
that they name. -/
theorem init_then_load :
    (∀ s : Settings, Settings.shape.ofText s.text = .ok s) ∧
    ∀ (a : InitArguments) (cwd : Path) (t u : FileTree) (ending : Ending),
      (init (m := StateM FileTree) a cwd).run t = (ending, u) →
      a.force = true ∨ t.holds (Settings.file cwd) = false → ending.refusal = none →
      ∃ s : Settings, s = ⟨a.modelDir, "generated", a.generators, none, none⟩ ∧
        (Settings.load (m := StateM FileTree) cwd).run u = (.ok s, u) ∧
        u.holds ((s.modelPath cwd).child exampleName) = true := by
  refine ⟨ofText_settings_text, fun a cwd t u ending hrun hwanted hended => ?_⟩
  have hstarts := starts_of_run hrun
  rw [hended] at hstarts
  cases hstarts with
  | kept hforce hholds =>
    rcases hwanted with h | h
    · rw [hforce] at h
      cases h
    · rw [hholds] at h
      cases h
  | done _ _ hexample hwrite =>
    obtain ⟨place, hstored⟩ := Disk.FileTree.stored_of_written hwrite
    have hread : u.readText (Settings.file cwd) = .ok a.settings.text :=
      Disk.FileTree.readText_eq_ok_iff.mpr ⟨place, hstored.resolve, hstored.text⟩
    have hload : ((Settings.load cwd : StateM FileTree _).run u).1 = .ok a.settings :=
      load_settings_of_text hread (ofText_settings_text a.settings)
    refine ⟨a.settings, rfl, Prod.ext hload (load_settings_state cwd u), ?_⟩
    exact hstored.grows.holds hexample.holds

/-- The model directory of this project is there, its example is not, and its settings are
to be replaced. -/
theorem init_then_load_forced :
    ∃ u ending, (init (m := StateM FileTree) ⟨["Sample"], "model", true⟩ ⟨"/w"⟩).run twinTree =
      (ending, u) ∧ ending.refusal = none ∧
      (Settings.load (m := StateM FileTree) ⟨"/w"⟩).run u =
        (.ok ⟨"model", "generated", ["Sample"], none, none⟩, u) ∧
      u.holds ⟨"/w/model/example.json"⟩ = true := by
  have hdir : twinTree.holds ⟨"/w/model"⟩ = true := Disk.FileTree.holds_iff.mpr
    ⟨["w", "model"], .directory, Disk.FileTree.resolve_of_descends rfl rfl, rfl⟩
  have hexample : twinTree.holds ⟨"/w/model/example.json"⟩ = false :=
    Disk.FileTree.holds_eq_false twinTree_unlinked (by decide)
  have hmodel : twinTree.Enters ["w", "model"] "example.json" :=
    ⟨rfl, by decide, by decide, by decide⟩
  have hproject : twinTree.Enters ["w"] settingsName := ⟨rfl, by decide, by decide, by decide⟩
  have hw : twinTree.Writable ⟨"/w/model/example.json"⟩ ["w", "model", "example.json"] :=
    Disk.FileTree.writable_of_descends rfl rfl hmodel (.inl rfl)
  have hw' : twinTree.Writable ⟨"/w/modelgen.config.json"⟩ ["w", settingsName] :=
    Disk.FileTree.writable_of_descends rfl rfl hproject (.inr ⟨_, rfl⟩)
  have hwrite := hw.writeText twinTree_unlinked exampleModel
  have hmid := (hw.stored exampleModel).grows.unlinked twinTree_unlinked
  rcases hrun : (init (m := StateM FileTree) ⟨["Sample"], "model", true⟩ ⟨"/w"⟩).run twinTree with
    ⟨ending, u⟩
  have hended : ending.refusal = none := by
    have hstarts := starts_of_run hrun
    generalize ending.refusal = refusal at hstarts
    cases hstarts with
    | kept => rfl
    | done => rfl
    | noDirectory _ hstep =>
      cases hstep with
      | made hmissing => cases hdir.symm.trans hmissing
    | noExample _ hstep hstep' =>
      cases hstep with
      | made hmissing => cases hdir.symm.trans hmissing
      | there =>
        cases hstep' with
        | written _ hfails => cases hwrite.symm.trans hfails
    | noSettings _ hstep hstep' hfails =>
      cases hstep with
      | made hmissing => cases hdir.symm.trans hmissing
      | there =>
        cases hstep' with
        | there hholds => cases hexample.symm.trans hholds
        | written _ hwritten =>
          cases hwrite.symm.trans hwritten
          cases ((hw'.put hw _).writeText hmid _).symm.trans hfails
  obtain ⟨s, rfl, hload, hholds⟩ := init_then_load.2 _ _ _ _ _ hrun (.inl rfl) hended
  exact ⟨u, ending, rfl, hended, hload, hholds⟩

/-! ### What is spared -/

/-- What a run may bring to a place: a directory that the path of the model directory goes
through or ends at, the example, or the settings. -/
inductive Brings (a : InitArguments) (cwd : Path) : Names → Node → Prop
  | directory {p : Path} : p ∈ (cwd.join ⟨a.modelDir⟩).ancestors →
      Brings a cwd p.place (.item .directory)
  | model : Brings a cwd (exampleFile a cwd).place (.item (.file (.text exampleModel)))
  | settings : Brings a cwd (Settings.file cwd).place (.item (.file (.text a.settings.text)))

/-- Nothing has changed but for what was brought to places where nothing was. -/
def Gains (a : InitArguments) (cwd : Path) (t u : FileTree) : Prop :=
  ∀ place, u.get? place = t.get? place ∨
    t.get? place = none ∧ ∃ n, u.get? place = some n ∧ Brings a cwd place n

namespace Gains

theorem refl (t : FileTree) : Gains a cwd t t := fun _ => .inl rfl

theorem kept (h : Gains a cwd t u) {place : Names} {n : Node} (hn : t.get? place = some n) :
    u.get? place = some n := by
  rcases h place with h | ⟨hnone, -⟩
  · rw [h, hn]
  · rw [hn] at hnone
    cases hnone

theorem new (h : Gains a cwd t u) {place : Names} {n : Node} (hnone : t.get? place = none)
    (hn : u.get? place = some n) : Brings a cwd place n := by
  rcases h place with h | ⟨-, n', hn', hb⟩
  · rw [h, hnone] at hn
    cases hn
  · rw [hn'] at hn
    cases hn
    exact hb

theorem trans (h : Gains a cwd t u) (h' : Gains a cwd u v) : Gains a cwd t v := by
  intro place
  rcases h' place with hsame | ⟨hnone', n, hn, hb⟩
  · rw [hsame]
    exact h place
  · rcases h place with hsame | ⟨-, n', hn', -⟩
    · exact .inr ⟨hsame.symm.trans hnone', n, hn, hb⟩
    · rw [hn'] at hnone'
      cases hnone'

theorem put {place : Names} {n : Node} (hne : place ≠ []) (hnone : t.get? place = none)
    (hb : Brings a cwd place n) : Gains a cwd t (t.put place n) := by
  intro q
  by_cases hq : q = place
  · subst hq
    exact .inr ⟨hnone, n, Disk.FileTree.get?_put_self hne n, hb⟩
  · exact .inl (Disk.FileTree.get?_put_of_ne hq n)

end Gains

variable {result : Except Disk.Error Unit}

theorem DirectoryStep.grows (h : DirectoryStep a cwd t result u) : Grows t u := by
  cases h with
  | there => exact .refl t
  | made _ hmake =>
    have hadds := Disk.FileTree.adds_makeDirectories (cwd.join ⟨a.modelDir⟩).ancestors t
    rw [hmake] at hadds
    exact hadds.grows

/-- The first step brings directories only. -/
theorem DirectoryStep.gains (ht : t.Unlinked) (h : DirectoryStep a cwd t result u) :
    Gains a cwd t u := by
  cases h with
  | there => exact .refl t
  | made _ hmake =>
    have hmakes : Disk.FileTree.Makes
        (fun q => ∃ p ∈ (cwd.join ⟨a.modelDir⟩).ancestors, p.place = q)
        (Disk.makeDirectories (m := StateM FileTree) (cwd.join ⟨a.modelDir⟩).ancestors) :=
      Disk.FileTree.makes_makeDirectories fun p hp => ⟨p, hp, rfl⟩
    have hnew := hmakes t ht
    rw [hmake] at hnew
    intro place
    rcases hnew place with hsame | ⟨hnone, hd, p, hp, rfl⟩
    · exact .inl hsame
    · exact .inr ⟨hnone, _, hd, .directory hp⟩

/-- The second step brings the example. -/
theorem ExampleStep.gains (ht : t.Unlinked) (h : ExampleStep a cwd t result u) :
    Grows t u ∧ Gains a cwd t u := by
  cases h with
  | there => exact ⟨.refl t, .refl t⟩
  | written hholds hwrite =>
    cases result with
    | error e =>
      obtain rfl := Disk.FileTree.writeText_error hwrite
      exact ⟨.refl _, .refl _⟩
    | ok _ =>
      obtain ⟨place, hne, hnone, rfl, hresolve⟩ :=
        Disk.FileTree.put_of_written_new hholds hwrite
      have hg := Disk.FileTree.grows_put (c := .text exampleModel) hne (.inl hnone)
      obtain rfl := Disk.FileTree.place_of_resolve (hg.unlinked ht) hresolve
      exact ⟨hg, .put hne hnone .model⟩

/-- How a tree is spared by a run. -/
structure Spares (a : InitArguments) (cwd : Path) (t u : FileTree) : Prop where
  /-- Every file holds what it held, but for settings that are to be replaced. -/
  files : ∀ place content, t.HasFile place content →
    (a.force = true → place ≠ (Settings.file cwd).place) → u.HasFile place content
  /-- The example is kept also then. -/
  model : ∀ content, t.HasFile (exampleFile a cwd).place content →
    u.HasFile (exampleFile a cwd).place content
  directories : ∀ place, t.get? place = some (.item .directory) →
    u.get? place = some (.item .directory)
  /-- If the settings are there and are not to be replaced, nothing changes. -/
  untouched : a.force = false → t.holds (Settings.file cwd) = true → u = t
  new : ∀ place n, t.get? place = none → u.get? place = some n → Brings a cwd place n

theorem isName_exampleName : IsName exampleName := by constructor <;> decide

/-- The example and the settings have different names. -/
theorem place_exampleFile_ne (a : InitArguments) (cwd : Path) :
    (exampleFile a cwd).place ≠ (Settings.file cwd).place := by
  have hsettings : Settings.file cwd = cwd.child settingsName := rfl
  rw [exampleFile, hsettings, Disk.Path.place_child isName_exampleName,
    Disk.Path.place_child isName_settingsName]
  intro e
  have hlast := congrArg List.getLast? e
  rw [List.getLast?_concat, List.getLast?_concat] at hlast
  exact absurd hlast (by decide)

/-- A run that was to write settings spares a tree if everything stays but for the settings
file, and what is new is what a run brings. -/
theorem spares_of_kept (hwanted : Wanted a cwd t)
    (hkept : ∀ place n, t.get? place = some n →
      (a.force = true → n = .item .directory ∨ place ≠ (Settings.file cwd).place) →
      u.get? place = some n)
    (hnew : ∀ place n, t.get? place = none → u.get? place = some n → Brings a cwd place n) :
    Spares a cwd t u where
  files place content hc hforce := hkept place _ hc fun h => .inr (hforce h)
  model content hc := hkept _ _ hc fun _ => .inr (place_exampleFile_ne a cwd)
  directories place hd := hkept place _ hd fun _ => .inl rfl
  untouched hforce hholds := by
    rcases hwanted with h | h
    · rw [hforce] at h
      cases h
    · rw [hholds] at h
      cases h
  new := hnew

/-- A run that stopped before the settings spares the tree. -/
theorem Gains.spares (h : Gains a cwd t u) (hwanted : Wanted a cwd t) : Spares a cwd t u :=
  spares_of_kept hwanted (fun _ _ hn _ => h.kept hn) fun _ _ => h.new

/-- Where settings were looked for and not found, nothing stands at their place if they can
be written. -/
theorem free_settings (ht : t.Unlinked) (hcwd : t.isDirectory cwd = true)
    (hmissing : t.holds (Settings.file cwd) = false) {place : Names}
    (hresolve : u.resolve (Settings.file cwd) = .ok place) :
    t.get? (Settings.file cwd).place = none := by
  obtain ⟨r, -, hr, -⟩ := Disk.FileTree.resolve_eq_ok_iff.mp hresolve
  cases hnode : t.get? (Settings.file cwd).place with
  | none => rfl
  | some node =>
    have hholds := Disk.FileTree.holds_child ht hcwd isName_settingsName (by decide) hr hnode
    cases hmissing.symm.trans hholds

/-- The last step replaces the settings or brings them. -/
theorem spares_of_done (ht : t.Unlinked) (hcwd : t.isDirectory cwd = true)
    (hwanted : Wanted a cwd t) (hg : Grows t w) (hgains : Gains a cwd t w)
    (hwrite : w.writeText (Settings.file cwd) a.settings.text = (.ok (), u)) :
    Spares a cwd t u := by
  obtain ⟨place, hne, rfl, hresolve, hfree⟩ := Disk.FileTree.put_of_written hwrite
  have hfree : w.get? place = none ∨ ∃ c, w.HasFile place c :=
    hfree.imp_right fun ⟨c, hc, _⟩ => ⟨c, hc⟩
  have hput := Disk.FileTree.grows_put (c := .text a.settings.text) hne hfree
  obtain rfl := Disk.FileTree.place_of_resolve (hput.unlinked (hg.unlinked ht)) hresolve
  refine spares_of_kept hwanted (fun q n hn hforce => ?_) fun q n hnone hn => ?_
  · by_cases hq : q = (Settings.file cwd).place
    · subst hq
      rcases hwanted with hforced | hmissing
      · -- a directory does not stand where a file was written
        obtain rfl : n = .item .directory := (hforce hforced).resolve_right (by simp)
        have hd := hgains.kept hn
        rcases hfree with hfree | ⟨c, hc⟩
        · cases hfree.symm.trans hd
        · cases hc.symm.trans hd
      · cases (free_settings ht hcwd hmissing hresolve).symm.trans hn
    · rw [Disk.FileTree.get?_put_of_ne hq]
      exact hgains.kept hn
  · by_cases hq : q = (Settings.file cwd).place
    · subst hq
      rw [Disk.FileTree.get?_put_self hne] at hn
      cases hn
      exact .settings
    · rw [Disk.FileTree.get?_put_of_ne hq] at hn
      exact hgains.new hnone hn

/-- **A run spares what was there.** In a tree without links where the directory of the
project is there, and however the run ends: every file is kept with what it holds, but for
the settings file if it is to be replaced; the example is always kept; with settings that
are not to be replaced nothing changes; and what is new is the model directory with those
above it, the example in it, and the settings. -/
theorem init_spares (ht : t.Unlinked) (hcwd : t.isDirectory cwd = true) {ending : Ending}
    (h : (init (m := StateM FileTree) a cwd).run t = (ending, u)) : Spares a cwd t u := by
  have hstarts := starts_of_run h
  generalize ending.refusal = refusal at hstarts
  cases hstarts with
  | kept hforce hholds =>
    exact ⟨fun _ _ hc _ => hc, fun _ hc => hc, fun _ hd => hd, fun _ _ => rfl,
      fun _ _ hnone hn => by cases hnone.symm.trans hn⟩
  | noDirectory hwanted hstep => exact (hstep.gains ht).spares hwanted
  | noExample hwanted hstep hstep' =>
    have hv := hstep.grows.unlinked ht
    exact ((hstep.gains ht).trans (hstep'.gains hv).2).spares hwanted
  | noSettings hwanted hstep hstep' hwrite =>
    have hv := hstep.grows.unlinked ht
    obtain rfl := Disk.FileTree.writeText_error hwrite
    exact ((hstep.gains ht).trans (hstep'.gains hv).2).spares hwanted
  | done hwanted hstep hstep' hwrite =>
    have hv := hstep.grows.unlinked ht
    obtain ⟨hgrows, hgains⟩ := hstep'.gains hv
    exact spares_of_done ht hcwd hwanted (hstep.grows.trans hgrows)
      ((hstep.gains ht).trans hgains) hwrite

/-- A run that replaces the settings of this project keeps its model files. -/
theorem init_spares_forced : ∃ u,
    u = ((init (m := StateM FileTree) ⟨["Sample"], "model", true⟩ ⟨"/w"⟩).run twinTree).2 ∧
    u.HasFile ["w", "model", "a.json"] (.text (Document.shape.compact (twin "one"))) ∧
    u.HasFile ["w", "model", "b.json"] (.text (Document.shape.compact (twin "two"))) := by
  have hcwd : twinTree.isDirectory ⟨"/w"⟩ = true := Disk.FileTree.isDirectory_iff.mpr
    ⟨["w"], Disk.FileTree.resolve_of_descends rfl rfl, rfl⟩
  rcases hrun : (init (m := StateM FileTree) ⟨["Sample"], "model", true⟩ ⟨"/w"⟩).run twinTree with
    ⟨ending, u⟩
  have hspares := init_spares twinTree_unlinked hcwd hrun
  exact ⟨u, rfl, hspares.files _ _ rfl fun _ => by decide,
    hspares.files _ _ rfl fun _ => by decide⟩

end Project
end ModelStubs
