/-
# Running twice

A second run finds the settings and the model files that the first found, because the
first has written nothing but directories and stubs. From there on it stays beside the
first, file by file (`Project.retraces_outcomes`), and comes to the same results and to
the tree that the first has left.

There is one difference that the second run may show. If the path of the output directory
leads up out of a directory that was missing, then the first run makes that directory on
the way to a file that stands where a directory is needed, and says that the file exists.
The second run comes to the file on its way, and says that it is no directory.

Key definitions: `Project.OutcomeRepeats`, `Project.RepeatedLine`,
`Project.OutputClimbsOut`.
Key theorems: `Project.retraces_outcomes`, `Project.ready_again`,
`Project.generate_again`.
-/
import ModelStubs.Project.Command
import ModelStubs.Proofs.FoundFiles
import ModelStubs.Proofs.SecondRuns

namespace ModelStubs

namespace Disk
namespace FileTree

/-- A path that leads to the same file reads the same. -/
theorem readText_congr {t u : FileTree} {p : Path} {place : Names} {c : Content}
    (ht : t.resolve p = .ok place) (htc : t.HasFile place c) (hu : u.resolve p = .ok place)
    (huc : u.HasFile place c) : u.readText p = t.readText p := by
  have hstatus : t.status p = .ok (.file c) := status_eq_ok_iff.mpr ⟨place, ht, htc⟩
  have hstatus' : u.status p = .ok (.file c) := status_eq_ok_iff.mpr ⟨place, hu, huc⟩
  unfold readText
  rw [hstatus, hstatus']

/-- Trees are the same if they list the same places and the same stands there. -/
theorem eq_of_get? {t u : FileTree} (hp : t.Proper) (hr : t.Rooted)
    (hplaces : u.entries.map Prod.fst = t.entries.map Prod.fst) (h : ∀ q, u.get? q = t.get? q) :
    u = t := by
  have hbelow : ∀ e ∈ t.entries, e.1 ≠ [] := by
    intro e he
    obtain ⟨dir, name, hname, -⟩ := hr e he
    rw [hname]
    simp
  have hup : u.Proper := by
    refine ⟨by rw [hplaces]; exact hp.distinct, fun e he n hn => ?_⟩
    have hmem : e.1 ∈ t.entries.map Prod.fst := by
      rw [← hplaces]
      exact List.mem_map_of_mem he
    obtain ⟨d, hd, hde⟩ := List.mem_map.mp hmem
    exact hp.names d hd n (hde ▸ hn)
  -- the entries are read off the places
  have hentries : ∀ {v : FileTree}, v.Proper → v.entries.map Prod.fst = t.entries.map Prod.fst →
      v.entries = (t.entries.map Prod.fst).map
        fun q => (q, (v.get? q).getD (.item .directory)) := by
    intro v hv hsame
    rw [← hsame, List.map_map]
    refine (List.map_id _).symm.trans (List.map_congr_left fun e he => ?_)
    have hmem : e.1 ∈ t.entries.map Prod.fst := by
      rw [← hsame]
      exact List.mem_map_of_mem he
    obtain ⟨d, hd, hde⟩ := List.mem_map.mp hmem
    have hget : v.get? e.1 = some e.2 := hv.get?_of_mem (hde ▸ hbelow d hd) he
    simp [hget]
  have heq : u.entries = t.entries := by
    refine (hentries hup hplaces).trans (Eq.trans ?_ (hentries hp rfl).symm)
    exact List.map_congr_left fun q _ => by rw [h q]
  exact congrArg FileTree.mk heq

end FileTree
end Disk

namespace Output

open Disk (FileTree)

/-- Beside the end of the first run the second has ended where it began. -/
theorem Retraced.eq_last {root : Disk.Path} {named : String → Prop} {first last w : FileTree}
    (h : Retraced root named first last last w) (hp : last.Proper) (hr : last.Rooted) :
    w = last := by
  refine Disk.FileTree.eq_of_get? hp hr h.places fun q => ?_
  rcases h.node q with hsame | ⟨c, d, hlast, hw, -⟩
  · exact hsame
  · exact hw.trans hlast.symm

end Output

namespace Project

open Disk (Path Names FileTree Content IsName)
open Disk.FileTree (Grows MoreDirectories ClimbsOut)
open Model (Document)
open Output (Changes Repeats Retraced Retraces)

/-! ### Side by side through a run -/

/-- The same lines are shown, and the second result repeats the first. -/
def ShowsAgain (climbs : Prop) {ε : Type} (wrap : Disk.Error → ε)
    (a b : Report × Except ε Nat) : Prop :=
  a.1 = b.1 ∧ Repeats climbs wrap a.2 b.2

/-- The second outcome of a model file repeats the first. -/
structure OutcomeRepeats (climbs : Prop) (o o' : FileOutcome) : Prop where
  names : o.names = o'.names
  shown : o.shown = o'.shown
  result : Repeats climbs (fun e => FileFailure.output (.disk e)) o.result o'.result

theorem ShowsAgain.refl {climbs : Prop} {ε : Type} {wrap : Disk.Error → ε}
    (a : Report × Except ε Nat) : ShowsAgain climbs wrap a a :=
  ⟨rfl, .same _⟩

theorem OutcomeRepeats.refl {climbs : Prop} (o : FileOutcome) : OutcomeRepeats climbs o o :=
  ⟨rfl, rfl, .same _⟩

section Retraces

variable {job : Job} {first last : FileTree}

theorem retraces_deliver (hfirst : first.Unlinked) (hrooted : first.Rooted)
    {files : GeneratedFiles} (h : Output.NamedFiles IsStubName files) :
    Retraces job.outDir IsStubName first last (ShowsAgain (ClimbsOut first job.outDir) .disk)
      (job.deliver files) (job.deliver files) := by
  unfold Job.deliver
  split
  · exact .pure (.refl _)
  · refine (Output.retraces_writeFiles hfirst hrooted h).bind hfirst .same fun a b hab => ?_
    cases hab with
    | met hclimbs => exact .pure ⟨rfl, .met hclimbs⟩
    | same a =>
      cases a with
      | error f => exact .pure (.refl _)
      | ok paths => exact .pure (.refl _)

theorem retraces_runGenerators (hfirst : first.Unlinked) (hrooted : first.Rooted)
    (hr : builtin = .ok job.registry) (d : Document) : ∀ names : List String,
    Retraces job.outDir IsStubName first last (ShowsAgain (ClimbsOut first job.outDir) .disk)
      (job.runGenerators d names) (job.runGenerators d names)
  | [] => .pure (.refl _)
  | name :: names => by
    unfold Job.runGenerators
    split
    · exact .pure (.refl _)
    · next files hfiles =>
      have hdeliver : Retraces job.outDir IsStubName first last
          (ShowsAgain (ClimbsOut first job.outDir) .disk) (job.deliver files) (job.deliver files) :=
        retraces_deliver hfirst hrooted (namedFiles_of_run hr hfiles)
      refine hdeliver.bind hfirst .refl fun a b hab => ?_
      obtain ⟨shown, a⟩ := a
      obtain ⟨shown', b⟩ := b
      obtain ⟨rfl, hab⟩ := hab
      cases hab with
      | met hclimbs => exact .pure ⟨rfl, .met hclimbs⟩
      | same a =>
        cases a with
        | error f => exact .pure (.refl _)
        | ok count =>
          refine (retraces_runGenerators hfirst hrooted hr d names).bind hfirst .refl
            fun c e hce => ?_
          obtain ⟨more, c⟩ := c
          obtain ⟨more', e⟩ := e
          obtain ⟨rfl, hce⟩ := hce
          cases hce with
          | met hclimbs => exact .pure ⟨rfl, .met hclimbs⟩
          | same c =>
            cases c with
            | error f => exact .pure (.refl _)
            | ok rest => exact .pure (.refl _)

/-- A model file reads the second time as it did the first. -/
theorem retraces_load (hlast : Changes job.outDir IsStubName first last) {file : Path}
    {place : Names} {c : Content} (hfile : first.resolve file = .ok place)
    (hc : first.HasFile place c) (hname : ∃ q, place.getLast? = some (q ++ ".json")) :
    Retraces job.outDir IsStubName first last Eq
      (Document.load file) (Document.load file) where
  performs := by
    intro t _
    rw [load_run]
  agrees := by
    intro t w hw _
    have hstub : ∀ n, place.getLast? = some n → ¬ IsStubName n := by
      intro n hn
      obtain ⟨q, hq⟩ := hname
      rw [hq] at hn
      cases hn
      exact not_isStubName_json q
    obtain ⟨hct, hcw⟩ := hw.hasFile hlast hstub hc
    have hread : w.readText file = t.readText file :=
      Disk.FileTree.readText_congr (hw.changes.grows.resolve hfile) hct
        ((hlast.grows.trans hw.grows_last).resolve hfile) hcw
    rw [load_run, load_run, hread]
    exact ⟨rfl, hw⟩

/-- The model file leads to a file that no run writes. -/
def IsModel (first : FileTree) (file : Path) : Prop :=
  ∃ place c, first.resolve file = .ok place ∧ first.HasFile place c ∧
    ∃ q, place.getLast? = some (q ++ ".json")

theorem retraces_processFile (hfirst : first.Unlinked) (hrooted : first.Rooted)
    (hr : builtin = .ok job.registry) (hlast : Changes job.outDir IsStubName first last)
    {file : Path} (hfile : IsModel first file) :
    Retraces job.outDir IsStubName first last
      (ShowsAgain (ClimbsOut first job.outDir) fun e => FileFailure.output (.disk e))
      (processFile job file) (processFile job file) := by
  obtain ⟨place, c, hresolve, hc, hname⟩ := hfile
  unfold processFile
  refine (retraces_load hlast hresolve hc hname).bind hfirst (fun _ => rfl) fun a b hab => ?_
  subst hab
  cases a with
  | error f => exact .pure (.refl _)
  | ok d =>
    have hrun : Retraces job.outDir IsStubName first last
        (ShowsAgain (ClimbsOut first job.outDir) Failure.disk)
        (job.runGenerators d job.generators) (job.runGenerators d job.generators) :=
      retraces_runGenerators hfirst hrooted hr d job.generators
    refine hrun.bind hfirst .refl fun a b hab => ?_
    obtain ⟨shown, a⟩ := a
    obtain ⟨shown', b⟩ := b
    obtain ⟨rfl, hab⟩ := hab
    cases hab with
    | met hclimbs => exact .pure ⟨rfl, .met hclimbs⟩
    | same a =>
      cases a with
      | error f => exact .pure (.refl _)
      | ok count => exact .pure (.refl _)

/-- The second run stays beside the first on the way through the model files. -/
theorem retraces_outcomes (hfirst : first.Unlinked) (hrooted : first.Rooted)
    (hr : builtin = .ok job.registry) (hlast : Changes job.outDir IsStubName first last) :
    ∀ {files : List Names}, (∀ names ∈ files, IsModel first (job.modelDir.below names)) →
    Retraces job.outDir IsStubName first last
      (List.Forall₂ (OutcomeRepeats (ClimbsOut first job.outDir)))
      (outcomes job files) (outcomes job files)
  | [], _ => .pure .nil
  | names :: files, h => by
    have hfile := retraces_processFile hfirst hrooted hr hlast (h names List.mem_cons_self)
    have ih : Retraces job.outDir IsStubName first last
        (List.Forall₂ (OutcomeRepeats (ClimbsOut first job.outDir)))
        (outcomes job files) (outcomes job files) :=
      retraces_outcomes hfirst hrooted hr hlast fun n hn => h n (List.mem_cons_of_mem _ hn)
    have hrefl : ∀ os, List.Forall₂ (OutcomeRepeats (ClimbsOut first job.outDir)) os os :=
      fun os => List.forall₂_same.mpr fun o _ => .refl o
    unfold outcomes
    refine hfile.bind hfirst .refl fun a b hab => ?_
    obtain ⟨shown, a⟩ := a
    obtain ⟨shown', b⟩ := b
    obtain ⟨rfl, hab⟩ := hab
    refine ih.bind hfirst hrefl fun os os' hos => ?_
    exact .pure (.cons ⟨rfl, rfl, hab⟩ hos)

end Retraces

/-! ### The settings -/

/-- Settings load the same if their file is there and reads the same. -/
theorem load_settings_congr {project : Path} {t u : FileTree}
    (hholds : u.holds (Settings.file project) = t.holds (Settings.file project))
    (hread : t.holds (Settings.file project) = true →
      u.readText (Settings.file project) = t.readText (Settings.file project)) :
    ((Settings.load project : StateM FileTree _).run u).1 =
      ((Settings.load project : StateM FileTree _).run t).1 := by
  unfold Settings.load
  rw [run_bind, run_bind, run_holds, run_holds, hholds]
  cases hthere : t.holds (Settings.file project) with
  | false => rfl
  | true =>
    simp only [if_true]
    rw [run_bind, run_bind, run_readText, run_readText, hread hthere]
    rcases t.readText (Settings.file project) with e | source
    · rfl
    · simp only
      rcases Settings.shape.ofText source with f | s
      · rfl
      · rfl

variable {a : GenerateArguments} {cwd : Path} {t u : FileTree} {s : Settings}

theorem isName_settingsName : IsName settingsName := by constructor <;> decide

theorem isName_singleton {n : String} (h : IsName n) : ∀ m ∈ [n], IsName m := by
  intro m hm
  rw [List.mem_singleton.mp hm]
  exact h

/-- A settings file that a run did not find is not found by the next. -/
theorem settings_absent_again {root : Path} {content : Content} (ht : t.Unlinked) (hr : t.Rooted)
    (h : Changes root IsStubName t u)
    (hfile : t.HasFile (Settings.file (cwd.join ⟨a.path⟩)).place content)
    (hready : Ready a cwd t s) (habsent : t.holds (Settings.file (cwd.join ⟨a.path⟩)) = false) :
    u.holds (Settings.file (cwd.join ⟨a.path⟩)) = false := by
  rw [Bool.eq_false_iff]
  intro hholds
  obtain ⟨place, i, hresolve, -⟩ := Disk.FileTree.holds_iff.mp hholds
  have hplace := Disk.FileTree.place_of_resolve (h.grows.unlinked ht) hresolve
  -- the model directory stands next to the settings file, so the way there is open
  have hdefault : s = Settings.default := by
    have hs := hready.settings
    rw [load_settings_of_absent habsent] at hs
    exact (Except.ok.inj hs).symm
  have hmodels := hready.models
  obtain ⟨model, i', hmodel, -⟩ := Disk.FileTree.holds_iff.mp hmodels
  rw [hdefault] at hmodel
  have hmodel : t.resolve ((cwd.join ⟨a.path⟩).below ["model"]) = .ok model := hmodel
  have hmodelName : IsName "model" := by constructor <;> decide
  obtain ⟨r, rest, hroute, hl⟩ := Disk.FileTree.resolve_eq_ok_iff.mp hmodel
  obtain ⟨more, hsteps⟩ : ∃ more,
      r.steps = (Disk.FileTree.Route.of (cwd.join ⟨a.path⟩).text).names ++ more := by
    rw [Disk.FileTree.routeOf_eq_ok hroute, Disk.FileTree.Route.steps,
      Disk.names_below (isName_singleton hmodelName)]
    split
    · exact ⟨["model", "."], by simp⟩
    · exact ⟨["model"], rfl⟩
  obtain ⟨mid, dir, hfront, -⟩ := hl.split hsteps
  have hmid := hfront.rest_eq ht
  subst hmid
  rw [← hplace] at hfile
  have hbefore : t.resolve ((cwd.join ⟨a.path⟩).below [settingsName]) = .ok place :=
    Disk.FileTree.resolve_below_before h.grows ht hr hfront (isName_singleton isName_settingsName)
      hresolve hfile
  have hthere := Disk.FileTree.holds_iff.mpr ⟨place, _, hbefore, hfile⟩
  have hfalse : t.holds ((cwd.join ⟨a.path⟩).below [settingsName]) = false := habsent
  rw [hfalse] at hthere
  cases hthere

/-- The settings stand under a name with the ending of model files, which no run writes. -/
theorem not_isStubName_settings {n : String}
    (h : (Settings.file (cwd.join ⟨a.path⟩)).place.getLast? = some n) : ¬ IsStubName n := by
  have hbelow : Settings.file (cwd.join ⟨a.path⟩) = (cwd.join ⟨a.path⟩).below [settingsName] := rfl
  have hending : settingsName = "modelgen.config" ++ ".json" := by decide
  rw [hbelow, Disk.place_below (isName_singleton isName_settingsName), List.getLast?_concat,
    Option.some.injEq] at h
  rw [← h, hending]
  exact not_isStubName_json "modelgen.config"

/-- **A run that was ready is ready again**, with the same settings. -/
theorem ready_again {root : Path} {content : Content} (ht : t.Unlinked) (hr : t.Rooted)
    (h : Changes root IsStubName t u)
    (hfile : t.HasFile (Settings.file (cwd.join ⟨a.path⟩)).place content)
    (hready : Ready a cwd t s) : Ready a cwd u s where
  settings := by
    rw [← hready.settings]
    cases hthere : t.holds (Settings.file (cwd.join ⟨a.path⟩)) with
    | false =>
      have habsent := settings_absent_again ht hr h hfile hready hthere
      refine load_settings_congr (habsent.trans hthere.symm) fun hholds => ?_
      rw [hthere] at hholds
      cases hholds
    | true =>
      obtain ⟨place, i, hresolve, -⟩ := Disk.FileTree.holds_iff.mp hthere
      have hplace := Disk.FileTree.place_of_resolve ht hresolve
      subst hplace
      have hkept := (h.hasFile_iff fun _ hn => not_isStubName_settings hn).mpr hfile
      have hagain := h.grows.resolve hresolve
      refine load_settings_congr ?_ fun _ => Disk.FileTree.readText_congr hresolve hfile hagain hkept
      rw [hthere, Disk.FileTree.holds_iff]
      exact ⟨_, _, hagain, hkept⟩
  models := by
    obtain ⟨place, i, hresolve, hi⟩ := Disk.FileTree.holds_iff.mp hready.models
    obtain ⟨i', hi'⟩ := h.grows.item hi
    exact Disk.FileTree.holds_iff.mpr ⟨place, i', h.grows.resolve hresolve, hi'⟩
  some_selected := hready.some_selected
  registered := hready.registered

/-! ### The report -/

/-- The line of the second report is that of the first, but that a file which the first run
says exists may be no directory to the second. -/
inductive RepeatedLine (climbs : Prop) : Line → Line → Prop
  | same (l : Line) : RepeatedLine climbs l l
  | met (shown : String) : climbs →
      RepeatedLine climbs (resultLine shown (.error (.output (.disk .alreadyExists))))
        (resultLine shown (.error (.output (.disk .notDirectory))))

section Report

variable {climbs : Prop} {r r' : Report} {os os' : List FileOutcome}

theorem forall₂_repeatedLine_refl (r : Report) : List.Forall₂ (RepeatedLine climbs) r r :=
  List.forall₂_same.mpr fun l _ => .same l

theorem eq_of_repeated (hclimbs : ¬ climbs) (h : List.Forall₂ (RepeatedLine climbs) r r') :
    r' = r := by
  induction h with
  | nil => rfl
  | cons hl _ ih =>
    cases hl with
    | same l => rw [ih]
    | met shown hc => exact absurd hc hclimbs

/-- The lines that may differ go to the error output. -/
theorem text_out_of_repeated (h : List.Forall₂ (RepeatedLine climbs) r r') (colours : Bool) :
    Report.text r' colours .out = Report.text r colours .out := by
  have hfilter : (r'.filter fun l => l.stream == .out) = r.filter fun l => l.stream == .out := by
    induction h with
    | nil => rfl
    | cons hl _ ih =>
      cases hl with
      | same l => rw [List.filter_cons, List.filter_cons, ih]
      | met shown hc => exact ih
  unfold Report.text
  rw [hfilter]

theorem OutcomeRepeats.lines {o o' : FileOutcome} (h : OutcomeRepeats climbs o o') :
    List.Forall₂ (RepeatedLine climbs) o.lines o'.lines := by
  obtain ⟨names, shown, result⟩ := o
  obtain ⟨names', shown', result'⟩ := o'
  obtain ⟨rfl, rfl, hresult⟩ := h
  refine List.rel_append (forall₂_repeatedLine_refl shown) (.cons ?_ .nil)
  cases hresult with
  | same => exact .same _
  | met hc => exact .met _ hc

theorem tallyOf_of_repeats (h : List.Forall₂ (OutcomeRepeats climbs) os os') :
    tallyOf os' = tallyOf os := by
  induction h with
  | nil => rfl
  | @cons o o' os os' ho _ ih =>
    have hsame : o'.isSuccess = o.isSuccess := by
      obtain ⟨names, shown, result⟩ := o
      obtain ⟨names', shown', result'⟩ := o'
      obtain ⟨rfl, rfl, hresult⟩ := ho
      cases hresult with
      | same => rfl
      | met => rfl
    rw [tallyOf_cons, tallyOf_cons, hsame, ih]

/-- Outcomes that repeat others make a report that repeats theirs. -/
theorem runReport_of_repeats (h : List.Forall₂ (OutcomeRepeats climbs) os os') :
    List.Forall₂ (RepeatedLine climbs) (runReport os) (runReport os') := by
  unfold runReport
  rw [tallyOf_of_repeats h, ← h.length_eq]
  refine .cons (.same _) ?_
  cases h with
  | nil => exact forall₂_repeatedLine_refl _
  | cons ho hos =>
    have hlines : List.Forall₂ (RepeatedLine climbs) _ _ :=
      List.rel_flatMap (.cons ho hos) fun _ _ => OutcomeRepeats.lines
    exact List.rel_append (.cons (.same _) hlines) (forall₂_repeatedLine_refl _)

end Report

/-! ### The second run -/

/-- A run that does not give up succeeds. -/
theorem outcome_of_done (report : Report) : Outcome.of ⟨report, none⟩ = ⟨report, 0⟩ := rfl

/-- The path of the output directory leads up out of a directory that is missing. -/
def OutputClimbsOut (a : GenerateArguments) (cwd : Path) (t : FileTree) : Prop :=
  ∃ s, ((Settings.load (cwd.join ⟨a.path⟩) : StateM FileTree _).run t).1 = .ok s ∧
    t.ClimbsOut (outputDirectory a cwd s)

/-- **Running twice changes nothing more.** In a tree without links where a file stands at
the place of the settings, whatever the run is asked for and however it ends: the second
run leaves the tree as it is, ends with the same code and writes the same to the output,
and its report repeats the first, line by line. The reports are the same unless the path of
the output directory leads up out of a directory that was missing; then a file that was
in the way may be met earlier on the way. -/
theorem generate_again (a : GenerateArguments) (cwd : Path) {t u v : FileTree}
    {first second : Ending} {content : Content} (ht : t.Unlinked) (hp : t.Proper) (hr : t.Rooted)
    (hfile : t.HasFile (Settings.file (cwd.join ⟨a.path⟩)).place content)
    (h : (generate a cwd : StateM FileTree _).run t = (first, u))
    (hagain : (generate a cwd : StateM FileTree _).run u = (second, v)) :
    v = u ∧
    (Outcome.of second).code = (Outcome.of first).code ∧
    (∀ colours, (Outcome.of second).report.text colours .out =
      (Outcome.of first).report.text colours .out) ∧
    List.Forall₂ (RepeatedLine (OutputClimbsOut a cwd t)) (Outcome.of first).report
      (Outcome.of second).report ∧
    (¬ OutputClimbsOut a cwd t → second = first) := by
  rcases generate_cases a cwd t with ⟨refusal, hrun⟩ | ⟨s, r, hready, hbuiltin, -, hrun⟩
  · -- nothing was done, so the same is asked of the same tree
    rw [hrun] at h
    cases h
    rw [hrun] at hagain
    cases hagain
    exact ⟨rfl, rfl, fun _ => rfl, forall₂_repeatedLine_refl _, fun _ => rfl⟩
  · rw [hrun] at h
    have hjob : builtin = .ok (jobOf a cwd s r).registry := hbuiltin
    have hchanges := changes_outcomes hjob (foundFiles t (modelDirectory a cwd s)) ht
    have hmodels : ∀ names ∈ foundFiles t (modelDirectory a cwd s),
        IsModel t ((jobOf a cwd s r).modelDir.below names) :=
      fun names hn => hasFile_of_mem_foundFiles ht hp hn
    obtain ⟨houtcomes, hw⟩ := (retraces_outcomes ht hr hjob hchanges hmodels).agrees t _
      (.start _ _ _ _) (.refl _)
    have hready' := ready_again ht hr hchanges hfile hready
    obtain ⟨r', hr', -, hprepare⟩ := prepare_of_ready hready'
    rw [hbuiltin] at hr'
    cases hr'
    have hfound : foundFiles ((outcomes (jobOf a cwd s r)
        (foundFiles t (modelDirectory a cwd s))).run t).2 (jobOf a cwd s r).modelDir =
        foundFiles t (modelDirectory a cwd s) :=
      foundFiles_of_changes ht hp hr hchanges hready.models
    cases h
    rw [generate_run hprepare, job_run_eq, hfound] at hagain
    cases hagain
    have hclimbs : t.ClimbsOut (jobOf a cwd s r).outDir → OutputClimbsOut a cwd t :=
      fun hc => ⟨s, hready.settings, hc⟩
    have hreport : List.Forall₂ (RepeatedLine (OutputClimbsOut a cwd t)) _ _ :=
      (runReport_of_repeats houtcomes).imp fun l l' hl => by
        cases hl with
        | same => exact .same _
        | met shown hc => exact .met shown (hclimbs hc)
    have htree := hw.eq_last (hchanges.proper hp) (hchanges.rooted hr)
    rw [outcome_of_done, outcome_of_done]
    refine ⟨htree, rfl, text_out_of_repeated hreport, hreport, fun hnot => ?_⟩
    exact congrArg (fun report => Ending.mk report none) (eq_of_repeated hnot hreport)

/-- The second run over the project with two documents ends as the first. -/
theorem generate_again_twin : twinTree.Unlinked ∧ twinTree.Proper ∧ twinTree.Rooted ∧
    twinTree.HasFile (Settings.file ((Disk.Path.mk "/").join ⟨twinArguments.path⟩)).place
      (.text (Settings.shape.compact twinSettings)) ∧
    ∃ report u,
      (generate twinArguments ⟨"/"⟩ : StateM FileTree _).run twinTree = (⟨report, none⟩, u) ∧
      (generate twinArguments ⟨"/"⟩ : StateM FileTree _).run u = (⟨report, none⟩, u) := by
  have hrooted : twinTree.Rooted := Disk.FileTree.rooted_of_entries (by decide)
  have hfile : twinTree.HasFile (Settings.file ((Disk.Path.mk "/").join ⟨twinArguments.path⟩)).place
      (.text (Settings.shape.compact twinSettings)) := by
    have hplace : (Settings.file ((Disk.Path.mk "/").join ⟨twinArguments.path⟩)).place =
        ["w", settingsName] := by decide
    rw [hplace]
    rfl
  obtain ⟨u, hrun⟩ := twinTree_run
  rcases hagain : (generate twinArguments ⟨"/"⟩ : StateM FileTree _).run u with ⟨second, v⟩
  obtain ⟨rfl, -, -, -, hsame⟩ :=
    generate_again twinArguments ⟨"/"⟩ twinTree_unlinked twinTree_proper hrooted hfile hrun hagain
  refine ⟨twinTree_unlinked, twinTree_proper, hrooted, hfile, _, v, hrun, ?_⟩
  rw [hagain, hsame]
  rintro ⟨s, hs, xs, ys, hnames, -⟩
  rw [twinTree_ready.settings] at hs
  cases hs
  have hup : ".." ∈ (Disk.FileTree.Route.of
      (outputDirectory twinArguments ⟨"/"⟩ twinSettings).text).names := by
    rw [hnames]
    simp
  exact absurd hup (by decide)

/-! ### A file that is met earlier -/

/-- A document whose files are not written fails, and costs one line. -/
theorem outcomes_of_error {a : GenerateArguments} {cwd : Path} {s : Settings} {r : Registry}
    (hr : builtin = .ok r) (hdisk : a.stdout = false)
    (hreg : ∀ name ∈ selection a s, name ∈ r.names) (hsome : selection a s ≠ [])
    {t u : FileTree} {names : Names} {d : Document}
    (hd : Loads t ((modelDirectory a cwd s).below names) d) {c : Output.Call}
    {cs : List Output.Call} {e : Disk.Error}
    (hcalls : Output.resolved (generated a s d).entries = .ok (c :: cs))
    (hcall : (Output.diskSink (outputDirectory a cwd s)).call t c = (.error e, u)) :
    (outcomes (jobOf a cwd s r) [names]).run t =
      ([⟨names, [], .error (.output (.disk e))⟩], u) := by
  have hwrite : (Output.writeFiles (m := StateM FileTree)
      (Output.diskSink (outputDirectory a cwd s)) (generated a s d)).run t =
      (.error (.disk e), u) :=
    (Output.writeFiles_of_resolved hcalls t).trans (Output.writeAll_cons_error hcall)
  have hgenerators : ((jobOf a cwd s r).runGenerators d (jobOf a cwd s r).generators :
      StateM FileTree _).run t = (([], .error (.disk e)), u) :=
    runGenerators_of_error hr hdisk hreg hsome hwrite
  have hfile : (processFile (jobOf a cwd s r) ((jobOf a cwd s r).modelDir.below names) :
      StateM FileTree _).run t = (([], .error (.output (.disk e))), u) :=
    (processFile_run hd).trans (by rw [hgenerators])
  rw [outcomes_cons hfile]
  rfl

/-- The path of the output directory leads up out of a name that is not there yet, to a
file. -/
def climbingArguments : GenerateArguments := ⟨"w", [], some "new/../file", none, false⟩

/-- A project with one document and a file. -/
def climbingTree : FileTree := ⟨[
  (["w"], .item .directory),
  (["w", settingsName], .item (.file (.text (Settings.shape.compact Settings.default)))),
  (["w", "file"], .item (.file (.text "x"))),
  (["w", "model"], .item .directory),
  (["w", "model", "a.json"], .item (.file (.text (Document.shape.compact (twin "one")))))]⟩

theorem climbingTree_unlinked : climbingTree.Unlinked :=
  Disk.FileTree.unlinked_of_entries (by simp [climbingTree])

/-- The tree with the directory that the path leads out of. -/
def climbedTree : FileTree := climbingTree.put ["w", "new"] (.item .directory)

/-- What is told if the stub of the document is not written. -/
def climbingReport (e : Disk.Error) : Report :=
  runReport [⟨["a.json"], [], .error (.output (.disk e))⟩]

/-- A run over the project, whatever directories were added elsewhere, fails as the stub of
the document does. -/
theorem climbing_run {t u : FileTree} (h : MoreDirectories climbingTree t)
    (hchildren : t.children ["w", "model"] = climbingTree.children ["w", "model"]) {e : Disk.Error}
    (hcall : (Output.diskSink ⟨"/w/new/../file"⟩).call t (⟨"model/Foo.sample"⟩, crossedText) =
      (.error e, u)) :
    (generate climbingArguments ⟨"/"⟩ : StateM FileTree _).run t =
      (⟨climbingReport e, none⟩, u) := by
  have hmodel : t.resolve ⟨"/w/model"⟩ = .ok ["w", "model"] :=
    h.grows.resolve (Disk.FileTree.resolve_of_descends rfl rfl)
  have hdir : t.get? ["w", "model"] = some (.item .directory) := h.grows.directory _ rfl
  have hready : Ready climbingArguments ⟨"/"⟩ t Settings.default := by
    refine ⟨load_settings_of_text (Disk.FileTree.readText_eq_ok_iff.mpr ⟨["w", settingsName],
      h.grows.resolve (Disk.FileTree.resolve_of_descends rfl rfl), h.hasFile_iff.mpr rfl⟩) ?_,
      Disk.FileTree.holds_iff.mpr ⟨_, _, hmodel, hdir⟩, by decide,
      ⟨[Stub.generator], by decide⟩, rfl, by decide⟩
    exact Json.Shape.ofText_compact (by decide) (by decide) Settings.default
  have hsingle : climbingTree.children ["w", "model"] =
      [("a.json", .item (.file (.text (Document.shape.compact (twin "one")))))] := by
    unfold Disk.FileTree.children
    exact List.mergeSort_singleton _
  have hdocs : HasDocuments climbingArguments ⟨"/"⟩ t Settings.default
      [(["a.json"], twin "one")] :=
    hasDocuments_of_child hmodel hdir (hchildren.trans hsingle) rfl
      (h.grows.resolve (Disk.FileTree.resolve_of_descends rfl rfl)) (h.hasFile_iff.mpr rfl)
      (Document.ofText_compact _)
  have hcalls : Output.resolved
      (generated climbingArguments Settings.default (twin "one")).entries =
      .ok [(⟨"model/Foo.sample"⟩, crossedText)] := rfl
  obtain ⟨r, hr, hreg, hrun⟩ := generate_eq_outcomes hready
  have houtcomes := outcomes_of_error hr rfl hreg hready.some_selected
    (hdocs.loads _ List.mem_cons_self) hcalls hcall
  have hfound : foundFiles t (modelDirectory climbingArguments ⟨"/"⟩ Settings.default) =
      [["a.json"]] := hdocs.files
  rw [hrun, hfound, houtcomes]
  rfl

/-- The directories that the stub asks for. -/
theorem climbing_ancestors :
    ((Disk.Path.mk "/w/new/../file").join ⟨"model/Foo.sample"⟩).ancestors.drop 1 =
    [⟨"/w/new/../file/model"⟩, ⟨"/w/new/../file"⟩, ⟨"/w/new/.."⟩, ⟨"/w/new"⟩, ⟨"/w"⟩, ⟨"/"⟩] := by
  decide +kernel

theorem climbedTree_more : MoreDirectories climbingTree climbedTree :=
  Disk.FileTree.moreDirectories_put (by decide) rfl

theorem climbedTree_unlinked : climbedTree.Unlinked :=
  climbedTree_more.grows.unlinked climbingTree_unlinked

/-- The way out of the new directory. -/
theorem climbedTree_up {links : Nat} : climbedTree.Leads links [] ["w", "new", ".."] links ["w"] := by
  have hdown : climbedTree.descends [] ["w", "new"] = true := rfl
  exact (Disk.FileTree.leads_of_descends hdown).append (.up rfl .done)

theorem climbedTree_file {links : Nat} :
    climbedTree.Leads links [] ["w", "new", "..", "file"] links ["w", "file"] :=
  climbedTree_up.append (.item ⟨rfl, by decide, by decide, by decide⟩ rfl .done)

/-- The first run makes the directory that the path leads out of, and comes to the file
when it makes the one that the path ends at. -/
theorem climbing_first : (Output.diskSink ⟨"/w/new/../file"⟩).call climbingTree
    (⟨"model/Foo.sample"⟩, crossedText) = (.error .alreadyExists, climbedTree) := by
  have henters : climbingTree.Enters ["w"] "new" := ⟨rfl, by decide, by decide, by decide⟩
  have hmissing : ∀ p rest last,
      Disk.FileTree.routeOf p = .ok ⟨["w"] ++ "new" :: rest ++ [last], false⟩ →
      climbingTree.makeDirectory p = (.error .notFound, climbingTree) :=
    fun p rest last hr => Disk.FileTree.makeDirectory_of_missing hr rfl henters rfl
  have hnew : climbingTree.makeDirectory ⟨"/w/new"⟩ = (.ok (), climbedTree) :=
    Disk.FileTree.makeDirectory_of_descends rfl rfl henters rfl
  have hup : climbedTree.isDirectory ⟨"/w/new/.."⟩ = true :=
    Disk.FileTree.isDirectory_of_leads (r := ⟨["w", "new", ".."], false⟩) rfl climbedTree_up rfl
  have hfile : climbedTree.Obstacle ⟨"/w/new/../file"⟩ .alreadyExists :=
    .file (r := ⟨["w", "new", "..", "file"], false⟩) rfl climbedTree_file rfl
  have hrun : (Disk.makeDirectories (m := StateM FileTree)
      (((Disk.Path.mk "/w/new/../file").join ⟨"model/Foo.sample"⟩).ancestors.drop 1)).run
      climbingTree = (.error .alreadyExists, climbedTree) := by
    rw [climbing_ancestors, Disk.FileTree.makeDirectories_run_iff]
    refine .stuck (by decide) (hmissing _ ["..", "file"] "model" rfl) ?_
    refine .second (by decide) (hmissing _ [".."] "file" rfl) ?_
      (.blocked (hfile.blocked climbedTree_unlinked))
    refine .second (by decide) (hmissing _ [] ".." rfl) ?_ (.there hup)
    exact .first (by decide) (.made hnew) (by simp)
  rw [Output.diskSink_call, hrun]

/-- The second run comes to the file on its way. -/
theorem climbing_second : (Output.diskSink ⟨"/w/new/../file"⟩).call climbedTree
    (⟨"model/Foo.sample"⟩, crossedText) = (.error .notDirectory, climbedTree) := by
  have hfile : climbedTree.Obstacle ⟨"/w/new/../file/model"⟩ .notDirectory :=
    .dead (r := ⟨["w", "new", "..", "file"] ++ ["model"], false⟩) rfl
      (Disk.FileTree.dead_of_file climbedTree_file rfl _ _) (by simp)
  rw [Output.diskSink_call, climbing_ancestors,
    Disk.FileTree.makeDirectories_of_obstacle climbedTree_unlinked hfile]

/-- **The second run may tell another error.** It leaves the tree as the first has left it,
and the same document fails, but the two runs name different errors. -/
theorem generate_again_climbing : climbingTree.Unlinked ∧ climbingTree.Proper ∧
    climbingTree.Rooted ∧
    climbingTree.HasFile (Settings.file ((Disk.Path.mk "/").join ⟨climbingArguments.path⟩)).place
      (.text (Settings.shape.compact Settings.default)) ∧
    ∃ first second,
      (generate climbingArguments ⟨"/"⟩ : StateM FileTree _).run climbingTree =
        (first, climbedTree) ∧
      (generate climbingArguments ⟨"/"⟩ : StateM FileTree _).run climbedTree =
        (second, climbedTree) ∧
      (Outcome.of first).report.text false .err =
        "  ✗ a.json - IO error: File exists (os error 17)\n" ∧
      (Outcome.of second).report.text false .err =
        "  ✗ a.json - IO error: Not a directory (os error 20)\n" := by
  have hchildren : climbedTree.children ["w", "model"] = climbingTree.children ["w", "model"] := rfl
  refine ⟨climbingTree_unlinked, ⟨by decide, by decide⟩,
    Disk.FileTree.rooted_of_entries (by decide), ?_, _, _,
    climbing_run (.refl _) rfl climbing_first,
    climbing_run climbedTree_more hchildren climbing_second, ?_, ?_⟩
  · have hplace : (Settings.file ((Disk.Path.mk "/").join ⟨climbingArguments.path⟩)).place =
        ["w", settingsName] := by decide
    rw [hplace]
    rfl
  · decide +kernel
  · decide +kernel

end Project

end ModelStubs
