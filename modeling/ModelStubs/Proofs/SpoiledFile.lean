/-
# A model file that fails

A model file that holds no text, or no document, or a class whose key is refused, costs
one line of the report and nothing else (`Project.generate_passes_over`). Two runs are
compared: one of them finds the file, among the others of the walk, and the other does
not. Up to the file both do the same, since nothing that the run reads or writes leads
through its place. The file itself fails before anything is written. So the files
behind it are gone through in trees that differ by the file alone.

This needs the file to be apart from the output directory: neither below it nor at a
place that its path leads through. There it would stand in the way of the directories
that the run makes.

Key definitions: `Project.Spoiled`, `Project.Addition`.
Key theorems: `Project.processFile_of_spoiled`, `Project.Addition.ready`,
`Project.generate_passes_over`.
-/
import ModelStubs.Proofs.LinkedWalks
import ModelStubs.Proofs.Outcomes
import ModelStubs.Proofs.RunOutcome
import ModelStubs.Proofs.Walks

namespace ModelStubs

namespace Disk

open FileTree (Route)

/-- A path leads through the places that the path of a directory above leads through. -/
theorem Path.passes_child {p : Path} {n : String} (hn : IsName n) {place : Names} :
    (p.child n).Passes place ↔ p.Passes place ∨ place = p.place ++ [n] := by
  have hnames : (Route.of (p.child n).text).names = (Route.of p.text).names ++ [n] := by
    rw [child, FileTree.names_join hn.isAbsolute, hn.names]
  have hplace : landing [] ((Route.of p.text).names ++ [n]) = p.place ++ [n] := by
    rw [landing_append, ← place_eq_landing]
    simp [landing, hn.not_here, hn.not_up]
  rw [passes_iff, passes_iff, hnames]
  constructor
  · rintro ⟨xs, hxs, rfl⟩
    rcases List.prefix_concat_iff.mp hxs with rfl | hxs
    · exact .inr hplace
    · exact .inl ⟨xs, hxs, rfl⟩
  · rintro (⟨xs, hxs, rfl⟩ | rfl)
    · exact ⟨xs, hxs.trans (List.prefix_append _ _), rfl⟩
    · exact ⟨_, List.prefix_rfl, hplace⟩

end Disk

namespace Project

open Disk (Path Names FileTree Content IsName)
open Disk.FileTree (Beside Proper)
open Model (DataClass Document)
open Output (Apart Refused)

/-- The key of the stub of a class in a document. -/
def classKey (s : Settings) (d : Document) (c : DataClass) : String :=
  Stub.fileName (.ofNamespace (s.namespaceName.getD d.namespaceName)) c

/-- The content of a model file that fails. -/
inductive Spoiled (s : Settings) : Content → Prop
  /-- The bytes spell no text. -/
  | notText (bytes : List UInt8) : Spoiled s (.bytes bytes)
  /-- The text spells no document. -/
  | invalid {source : String} {f : Json.Fault} :
      Document.ofText source = .error f → Spoiled s (.text source)
  /-- The document has a class whose key is refused. -/
  | refused {source : String} {d : Document} {c : DataClass} :
      Document.ofText source = .ok d → c ∈ d.classes → Refused (classKey s d c) →
      Spoiled s (.text source)

/-! ### The file fails -/

/-- Files with a key that is refused are not written. -/
theorem writeFiles_of_refused {sink : Output.Sink (StateM FileTree)} {files : GeneratedFiles}
    {key : String} (hk : key ∈ files.keys) (h : Refused key) (t : FileTree) :
    ∃ f, (Output.writeFiles sink files).run t = (.error f, t) := by
  cases hr : Output.resolved files.entries with
  | error f => exact ⟨f, Output.writeFiles_of_error hr t⟩
  | ok calls =>
    obtain ⟨e, he, rfl⟩ := List.mem_map.mp hk
    obtain ⟨c, -, hpath, -⟩ := (Output.resolved_eq_ok_iff.mp hr).exists_call he
    rw [Refused, hpath] at h
    cases h

/-- If the files of a document are not written then the run of its generators ends at the
first of them. -/
theorem runGenerators_of_error {a : GenerateArguments} {cwd : Path} {s : Settings}
    {r : Registry} (hr : builtin = .ok r) (hdisk : a.stdout = false) {d : Document}
    {names : List String} (hreg : ∀ name ∈ names, name ∈ r.names) (hsome : names ≠ [])
    {t u : FileTree} {f : Failure}
    (hf : (Output.writeFiles (m := StateM FileTree) (Output.diskSink (outputDirectory a cwd s))
      (generated a s d)).run t = (.error f, u)) :
    ((jobOf a cwd s r).runGenerators d names : StateM FileTree _).run t =
      (([], .error f), u) := by
  obtain ⟨name, more, rfl⟩ := List.exists_cons_of_ne_nil hsome
  have hrun : (jobOf a cwd s r).registry.run name ((jobOf a cwd s r).placement d) d.elements
      ((jobOf a cwd s r).version d) = .ok (generated a s d) := by
    rw [placement_jobOf]
    exact run_of_registered hr (hreg name List.mem_cons_self) _ _ _
  have hstdout : (jobOf a cwd s r).stdout = false := hdisk
  have hf : (Output.writeFiles (m := StateM FileTree)
      (Output.diskSink (jobOf a cwd s r).outDir) (generated a s d)).run t = (.error f, u) := hf
  have hdeliver : ((jobOf a cwd s r).deliver (generated a s d) : StateM FileTree _).run t =
      (([], .error f), u) := by
    unfold Job.deliver
    rw [hstdout, if_neg (by decide), run_bind, hf]
    rfl
  unfold Job.runGenerators
  simp only [hrun]
  rw [run_bind, hdeliver]
  rfl

/-- A run of some generators on a document with a refused key fails at the first of
them. -/
theorem runGenerators_of_refused {a : GenerateArguments} {cwd : Path} {s : Settings}
    {r : Registry} (hr : builtin = .ok r) (hdisk : a.stdout = false) {d : Document}
    {c : DataClass} (hc : c ∈ d.classes) (h : Refused (classKey s d c)) {names : List String}
    (hreg : ∀ name ∈ names, name ∈ r.names) (hsome : names ≠ []) (t : FileTree) :
    ∃ f, ((jobOf a cwd s r).runGenerators d names : StateM FileTree _).run t =
      (([], .error f), t) := by
  have hkey : classKey s d c ∈ (generated a s d).keys := Stub.mem_keys_stubs.mpr ⟨c, hc, rfl⟩
  obtain ⟨f, hf⟩ := writeFiles_of_refused hkey h t
  exact ⟨f, runGenerators_of_error hr hdisk hreg hsome hf⟩

/-- **A spoiled file fails, and nothing is written for it.** -/
theorem processFile_of_spoiled {a : GenerateArguments} {cwd : Path} {s : Settings}
    {r : Registry} (hr : builtin = .ok r) (hreg : ∀ name ∈ selection a s, name ∈ r.names)
    (hsome : selection a s ≠ []) (hdisk : a.stdout = false) {t : FileTree} {file : Path}
    {place : Names} {content : Content} (hplace : t.resolve file = .ok place)
    (hfile : t.HasFile place content) (h : Spoiled s content) :
    ∃ f, (processFile (jobOf a cwd s r) file : StateM FileTree _).run t =
      (([], .error f), t) := by
  have hstatus : t.status file = .ok (.file content) :=
    Disk.FileTree.status_eq_ok_iff.mpr ⟨place, hplace, hfile⟩
  have hfails : ∀ f, (Document.load file : StateM FileTree _).run t = (.error f, t) →
      ∃ f, (processFile (jobOf a cwd s r) file : StateM FileTree _).run t =
        (([], .error f), t) := by
    intro f hf
    refine ⟨.model f, ?_⟩
    unfold processFile
    rw [run_bind, hf]
    rfl
  cases h with
  | notText bytes =>
    have hread : t.readText file = .error .notText := by simp only [Disk.FileTree.readText, hstatus]
    exact hfails (.unreadable file .notText) (by rw [load_run, hread])
  | @invalid source f hf =>
    have hread : t.readText file = .ok source := by simp only [Disk.FileTree.readText, hstatus]
    exact hfails (.invalid f) (by rw [load_run, hread]; simp only [hf])
  | @refused source d c hd hc hkey =>
    have hread : t.readText file = .ok source := by simp only [Disk.FileTree.readText, hstatus]
    have hloads : Loads t file d := loads_iff.mpr ⟨source, hread, hd⟩
    obtain ⟨f, hf⟩ : ∃ f, ((jobOf a cwd s r).runGenerators d (selection a s) :
        StateM FileTree _).run t = (([], .error f), t) :=
      runGenerators_of_refused hr hdisk hc hkey hreg hsome t
    refine ⟨.output f, ?_⟩
    have hgenerators : (jobOf a cwd s r).generators = selection a s := rfl
    rw [processFile_run hloads, hgenerators, hf]

/-! ### The file is added -/

/-- The place of a file below the model directory. -/
def addedPlace (a : GenerateArguments) (cwd : Path) (s : Settings) (names : Names) : Names :=
  (modelDirectory a cwd s).place ++ names

/-- The tree with a file added below the model directory. -/
def withFile (a : GenerateArguments) (cwd : Path) (s : Settings) (t : FileTree) (names : Names)
    (content : Content) : FileTree :=
  t.put (addedPlace a cwd s names) (.item (.file content))

/-- A spoiled model file can be added to a project: there is a model directory, nothing
stands at the place, and the path of the file leads there afterwards. The place is
apart from the output directory. -/
structure Addition (a : GenerateArguments) (cwd : Path) (s : Settings) (t : FileTree)
    (names : Names) (content : Content) : Prop where
  directory : t.isDirectory (modelDirectory a cwd s) = true
  plain : ∀ n ∈ names, IsName n
  isModel : isModelFile (modelDirectory a cwd s) names = true
  not_settings : names.getLast? ≠ some settingsName
  free : t.get? (addedPlace a cwd s names) = none
  found : (withFile a cwd s t names content).holds ((modelDirectory a cwd s).below names) = true
  apart : Apart (outputDirectory a cwd s) (addedPlace a cwd s names)
  spoiled : Spoiled s content

namespace Addition

variable {a : GenerateArguments} {cwd : Path} {s : Settings} {t : FileTree} {names : Names}
  {content : Content}

theorem beside (h : Addition a cwd s t names content) :
    Beside (addedPlace a cwd s names) content t (withFile a cwd s t names content) :=
  .of_put h.free

/-- The model directory stands at the place that its path spells. -/
theorem resolve (h : Addition a cwd s t names content) (ht : t.Unlinked) :
    t.resolve (modelDirectory a cwd s) = .ok (modelDirectory a cwd s).place ∧
      t.get? (modelDirectory a cwd s).place = some (.item .directory) := by
  obtain ⟨place, hr, hd⟩ := Disk.FileTree.isDirectory_iff.mp h.directory
  rw [← Disk.FileTree.place_of_resolve ht hr]
  exact ⟨hr, hd⟩

theorem names_ne_nil (h : Addition a cwd s t names content) (ht : t.Unlinked) : names ≠ [] := by
  rintro rfl
  have hfree := h.free
  rw [addedPlace, List.append_nil, (h.resolve ht).2] at hfree
  cases hfree

/-- The file has a path of names. -/
theorem isName (h : Addition a cwd s t names content) (ht : t.Unlinked) (hp : t.Proper) :
    ∀ n ∈ addedPlace a cwd s names, IsName n := by
  intro n hn
  rcases List.mem_append.mp hn with hn | hn
  · have hne : (modelDirectory a cwd s).place ≠ [] := List.ne_nil_of_mem hn
    exact hp.names _ (Disk.FileTree.mem_entries_of_get? hne (h.resolve ht).2) n hn
  · exact h.plain n hn

/-- Settings are not looked for at the place of the file. -/
theorem settings_avoids (h : Addition a cwd s t names content) (ht : t.Unlinked)
    (hready : Ready a cwd t s) :
    (Settings.file (cwd.join ⟨a.path⟩)).Avoids (addedPlace a cwd s names) := by
  by_cases hholds : t.holds (Settings.file (cwd.join ⟨a.path⟩)) = true
  · obtain ⟨place, i, hr, -⟩ := Disk.FileTree.holds_iff.mp hholds
    exact Disk.FileTree.avoids_of_resolve ht hr h.free
  · -- without a settings file the model directory stands next to where one would be
    have hdefault : s = Settings.default := by
      have habsent : t.holds (Settings.file (cwd.join ⟨a.path⟩)) = false := by simpa using hholds
      have hs := hready.settings
      rw [load_settings_of_absent habsent] at hs
      exact (Except.ok.inj hs).symm
    have hmodel : modelDirectory a cwd s = (cwd.join ⟨a.path⟩).child "model" := by
      rw [hdefault]
      rfl
    have hsettings : IsName settingsName := by constructor <;> decide
    have hmodelName : IsName "model" := by constructor <;> decide
    have havoids := Disk.FileTree.avoids_of_resolve ht (h.resolve ht).1 h.free
    rw [hmodel] at havoids
    intro hpass
    rcases (Path.passes_child hsettings).mp hpass with hp | hp
    · exact havoids ((Path.passes_child hmodelName).mpr (.inl hp))
    · have hlast := congrArg List.getLast? hp
      obtain ⟨n, hn⟩ := Option.ne_none_iff_exists'.mp
        (mt List.getLast?_eq_none_iff.mp (h.names_ne_nil ht))
      rw [List.getLast?_concat, addedPlace, List.getLast?_append, hn] at hlast
      exact h.not_settings (hn.trans hlast)

/-- The run starts as it did without the file. -/
theorem ready (h : Addition a cwd s t names content) (ht : t.Unlinked)
    (hready : Ready a cwd t s) : Ready a cwd (withFile a cwd s t names content) s where
  settings := by
    have havoids := h.settings_avoids ht hready
    have hblind : Disk.FileTree.Blind (addedPlace a cwd s names)
        (Settings.load (cwd.join ⟨a.path⟩) : StateM FileTree _) := by
      have hblind : Disk.Compositional (Disk.FileTree.Blind (addedPlace a cwd s names)) :=
        Disk.FileTree.blind_compositional
      unfold Settings.load
      refine hblind.bind (Disk.FileTree.blind_holds havoids) fun b => ?_
      split
      · refine hblind.bind (Disk.FileTree.blind_readText havoids) fun result => ?_
        split
        · exact hblind.pure _
        · split
          · exact hblind.pure _
          · exact hblind.pure _
      · exact hblind.pure _
    rw [(hblind content t _ ht h.beside).1]
    exact hready.settings
  models := by
    obtain ⟨hr, hd⟩ := h.resolve ht
    have hg := h.beside.grows
    exact Disk.FileTree.holds_iff.mpr ⟨_, .directory, hg.resolve hr, hg.directory _ hd⟩
  some_selected := hready.some_selected
  registered := hready.registered

/-- The file shows up once among the model files. -/
theorem foundFiles_eq (h : Addition a cwd s t names content) (ht : t.Unlinked) (hp : t.Proper) :
    ∃ before after, foundFiles t (modelDirectory a cwd s) = before ++ after ∧
      foundFiles (withFile a cwd s t names content) (modelDirectory a cwd s) =
        before ++ names :: after := by
  obtain ⟨hr, hd⟩ := h.resolve ht
  obtain ⟨before, after, hold, hnew⟩ := Disk.FileTree.filesBelow_put ht hp (h.names_ne_nil ht) hr hd
    h.free (h.isName ht hp) h.found
  refine ⟨before.filter (isModelFile (modelDirectory a cwd s)),
    after.filter (isModelFile (modelDirectory a cwd s)), ?_, ?_⟩
  · rw [foundFiles, hold, List.filter_append]
  · have hnew : (withFile a cwd s t names content).filesBelow (modelDirectory a cwd s) =
        before ++ names :: after := hnew
    rw [foundFiles, hnew, List.filter_append, List.filter_cons, h.isModel, if_pos rfl]

/-- No other model file is looked for at the place of the file. -/
theorem avoids_of_mem (h : Addition a cwd s t names content) (ht : t.Unlinked) (hp : t.Proper)
    {file : Names} (hf : file ∈ foundFiles t (modelDirectory a cwd s)) :
    ((modelDirectory a cwd s).below file).Avoids (addedPlace a cwd s names) := by
  have hholds := Disk.FileTree.holds_of_mem_filesBelow hp (List.mem_filter.mp hf).1
  obtain ⟨place, i, hr, -⟩ := Disk.FileTree.holds_iff.mp hholds
  exact Disk.FileTree.avoids_of_resolve ht hr h.free

/-- The outcomes of the other files are what they were, and the file fails. -/
theorem outcomes_eq (h : Addition a cwd s t names content) (ht : t.Unlinked) (hp : t.Proper)
    {r : Registry} (hr : builtin = .ok r) (hreg : ∀ name ∈ selection a s, name ∈ r.names)
    (hsome : selection a s ≠ []) (hdisk : a.stdout = false) {before after : List Names}
    (hfiles : foundFiles t (modelDirectory a cwd s) = before ++ after) :
    ∃ first last f u u',
      (outcomes (jobOf a cwd s r) (before ++ after)).run t = (first ++ last, u) ∧
      (outcomes (jobOf a cwd s r) (before ++ names :: after)).run
        (withFile a cwd s t names content) = (first ++ ⟨names, [], .error f⟩ :: last, u') ∧
      Beside (addedPlace a cwd s names) content u u' := by
  have havoids : ∀ file ∈ before ++ after,
      ((jobOf a cwd s r).modelDir.below file).Avoids (addedPlace a cwd s names) :=
    fun file hf => h.avoids_of_mem ht hp (hfiles ▸ hf)
  have hapart : Apart (jobOf a cwd s r).outDir (addedPlace a cwd s names) := h.apart
  -- the files in front
  obtain ⟨hfirst, hv, hbeside⟩ := blind_outcomes hapart
    (fun file hf => havoids file (List.mem_append_left _ hf)) content t _ ht h.beside
  -- the file itself stands where it was put, and its path leads there still
  have hconf := confines_outcomes (jobOf a cwd s r) before _ (h.beside.unlinked ht)
  obtain ⟨place, i, hresolve, -⟩ := Disk.FileTree.holds_iff.mp h.found
  have hplace : place = addedPlace a cwd s names := by
    rw [Disk.FileTree.place_of_resolve (h.beside.unlinked ht) hresolve]
    exact Disk.place_below h.plain
  rw [hplace] at hresolve
  obtain ⟨f, hf⟩ := processFile_of_spoiled hr hreg hsome hdisk (hconf.grows.resolve hresolve)
    hbeside.present h.spoiled
  -- the files behind
  obtain ⟨hlast, -, hend⟩ := blind_outcomes hapart
    (fun file hf => havoids file (List.mem_append_right _ hf)) content _ _ hv hbeside
  refine ⟨_, _, f, _, _, outcomes_append t, ?_, hend⟩
  rw [outcomes_append, hfirst, outcomes_cons hf, hlast]

end Addition

/-- **A model file that fails costs one line, and every model file has its line.**
In every run that gets past the checks the report is made of one outcome for each model
file found, so the files that were processed and those that failed add up to all of them.
And if a spoiled file is added to a project, apart from the output directory, a run that
got past the checks does so again. The other outcomes are the same and in the same order,
one failure more is told, under the name of the file, and the tree that the run leaves
differs by that file only. -/
theorem generate_passes_over :
    (∀ (a : GenerateArguments) (cwd : Path) (t u : FileTree) (ending : Ending),
      (generate a cwd : StateM FileTree _).run t = (ending, u) → ending.refusal = none →
      ∃ s os, Ready a cwd t s ∧ ending.report = runReport os ∧
        os.map FileOutcome.names = foundFiles t (modelDirectory a cwd s) ∧
        (tallyOf os).processed + (tallyOf os).failed =
          (foundFiles t (modelDirectory a cwd s)).length) ∧
    ∀ (a : GenerateArguments) (cwd : Path) (t u : FileTree) (ending : Ending) (s : Settings)
      (names : Names) (content : Content),
      t.Unlinked → t.Proper → a.stdout = false →
      (generate a cwd : StateM FileTree _).run t = (ending, u) → ending.refusal = none →
      Ready a cwd t s → Addition a cwd s t names content →
      ∃ before after f u',
        ending.report = runReport (before ++ after) ∧
        (generate a cwd : StateM FileTree _).run (withFile a cwd s t names content) =
          (⟨runReport (before ++ ⟨names, [], .error f⟩ :: after), none⟩, u') ∧
        tallyOf (before ++ ⟨names, [], .error f⟩ :: after) =
          ⟨(tallyOf (before ++ after)).processed, (tallyOf (before ++ after)).failed + 1⟩ ∧
        u'.HasFile (addedPlace a cwd s names) content ∧
        ∀ place, place ≠ addedPlace a cwd s names → u'.get? place = u.get? place := by
  refine ⟨?_, ?_⟩
  · intro a cwd t u ending h haccepted
    obtain ⟨s, r, hready, -, -, hreport, -⟩ := generate_of_accepted h haccepted
    have hnames : ((outcomes (jobOf a cwd s r) (foundFiles t (modelDirectory a cwd s))).run
        t).1.map FileOutcome.names = foundFiles t (modelDirectory a cwd s) := outcomes_names t
    refine ⟨s, _, hready, hreport, hnames, ?_⟩
    rw [tallyOf_total, ← List.length_map (f := FileOutcome.names), hnames]
  · intro a cwd t u ending s names content ht hp hdisk hrun haccepted hready h
    obtain ⟨r, hr, hreg, hprep⟩ := prepare_of_ready hready
    obtain ⟨before, after, hold, hnew⟩ := h.foundFiles_eq ht hp
    obtain ⟨first, last, f, v, u', hos, hos', hbeside⟩ :=
      h.outcomes_eq ht hp hr hreg hready.some_selected hdisk hold
    have hmodel : (jobOf a cwd s r).modelDir = modelDirectory a cwd s := rfl
    obtain ⟨rfl, rfl⟩ : ending = ⟨runReport (first ++ last), none⟩ ∧ u = v := by
      rw [generate_run hprep, job_run_eq, hmodel, hold, hos] at hrun
      cases hrun
      exact ⟨rfl, rfl⟩
    obtain ⟨r', hr', -, hprep'⟩ := prepare_of_ready (h.ready ht hready)
    obtain rfl : r = r' := by
      rw [hr] at hr'
      exact Except.ok.inj hr'
    refine ⟨first, last, f, u', rfl, ?_, ?_, hbeside.present, hbeside.others⟩
    · rw [generate_run hprep', job_run_eq, hmodel, hnew, hos']
    · simp [tallyOf, FileOutcome.isSuccess]
      omega

theorem twinTree_proper : twinTree.Proper := ⟨by decide, by decide⟩

/-- The file `broken.json` can be added to the project with two documents. -/
theorem twinTree_addition : Addition twinArguments ⟨"/"⟩ twinSettings twinTree ["broken.json"]
    (.bytes [255]) where
  directory := Disk.FileTree.isDirectory_iff.mpr
    ⟨["w", "model"], Disk.FileTree.resolve_of_descends rfl rfl, rfl⟩
  plain := by decide
  isModel := by decide
  not_settings := by decide
  free := rfl
  found := Disk.FileTree.holds_iff.mpr
    ⟨["w", "model", "broken.json"], _, Disk.FileTree.resolve_of_descends rfl rfl, rfl⟩
  apart := ⟨by decide, by decide⟩
  spoiled := .notText _

/-- With `broken.json` among them the two documents are processed as before. -/
theorem generate_passes_over_broken : twinTree.Unlinked ∧ twinTree.Proper ∧
    Ready twinArguments ⟨"/"⟩ twinTree twinSettings ∧
    Addition twinArguments ⟨"/"⟩ twinSettings twinTree ["broken.json"] (.bytes [255]) ∧
    ∃ before after f u u',
      (generate twinArguments ⟨"/"⟩ : StateM FileTree _).run twinTree =
        (⟨runReport (before ++ after), none⟩, u) ∧
      (generate twinArguments ⟨"/"⟩ : StateM FileTree _).run
        (withFile twinArguments ⟨"/"⟩ twinSettings twinTree ["broken.json"] (.bytes [255])) =
        (⟨runReport (before ++ ⟨["broken.json"], [], .error f⟩ :: after), none⟩, u') ∧
      u'.get? ["w", "generated", "model", "Foo.sample"] =
        u.get? ["w", "generated", "model", "Foo.sample"] := by
  obtain ⟨u, hrun⟩ := twinTree_run
  obtain ⟨before, after, f, u', hreport, hrun', -, -, hsame⟩ := generate_passes_over.2 _ _ _ _ _ _ _ _
    twinTree_unlinked twinTree_proper rfl hrun rfl twinTree_ready twinTree_addition
  refine ⟨twinTree_unlinked, twinTree_proper, twinTree_ready, twinTree_addition,
    before, after, f, u, u', ?_, hrun', hsame _ (by decide)⟩
  have hreport : fullReport twinArguments twinSettings twinDocuments =
      runReport (before ++ after) := hreport
  rw [hrun, hreport]

/-! ### A file in the way

The place of the file may not be one that the path of the output directory leads
through. -/

/-- The output directory is asked for below a name that could be that of a model file. -/
def crossedArguments : GenerateArguments := ⟨"w", [], some "model/x.json/gen", none, false⟩

/-- A project with one document and no output directory yet. -/
def crossedTree : FileTree := ⟨[
  (["w"], .item .directory),
  (["w", "model"], .item .directory),
  (["w", "model", "a.json"], .item (.file (.text (Document.shape.compact (twin "one")))))]⟩

/-- The one file that the document makes. -/
def crossedFile : Path := ⟨"/w/model/x.json/gen/model/Foo.sample"⟩

theorem crossedTree_unlinked : crossedTree.Unlinked :=
  Disk.FileTree.unlinked_of_entries (by simp [crossedTree])

/-- The run is ready in every tree that has the model directory and no settings file. -/
theorem ready_crossed {t : FileTree} (ht : t.Unlinked)
    (hmodel : t.holds ⟨"/w/model"⟩ = true) (hnone : t.get? ["w", settingsName] = none) :
    Ready crossedArguments ⟨"/"⟩ t Settings.default where
  settings := by
    refine load_settings_of_absent ?_
    rw [Bool.eq_false_iff, ne_eq, Disk.FileTree.holds_iff]
    rintro ⟨place, i, hr, hi⟩
    have hplace : place = ["w", settingsName] := Disk.FileTree.place_of_resolve ht hr
    rw [hplace, hnone] at hi
    cases hi
  models := hmodel
  some_selected := by decide
  registered := ⟨⟨[Stub.generator], by decide⟩, rfl, by decide⟩

theorem crossedTree_ready : Ready crossedArguments ⟨"/"⟩ crossedTree Settings.default :=
  ready_crossed crossedTree_unlinked (Disk.FileTree.holds_iff.mpr
    ⟨["w", "model"], .directory, Disk.FileTree.resolve_of_descends rfl rfl, rfl⟩) rfl

theorem crossedTree_hasDocuments : HasDocuments crossedArguments ⟨"/"⟩ crossedTree
    Settings.default [(["a.json"], twin "one")] := by
  have hchildren : crossedTree.children ["w", "model"] =
      [("a.json", .item (.file (.text (Document.shape.compact (twin "one")))))] := by
    unfold Disk.FileTree.children
    exact List.mergeSort_singleton _
  exact hasDocuments_of_child (Disk.FileTree.resolve_of_descends rfl rfl) rfl hchildren rfl
    (Disk.FileTree.resolve_of_descends rfl rfl) rfl (Document.ofText_compact _)

/-- The tree with the directories that the run makes. -/
def crossedDirectories : FileTree :=
  ((crossedTree.put ["w", "model", "x.json"] (.item .directory)).put
    ["w", "model", "x.json", "gen"] (.item .directory)).put
    ["w", "model", "x.json", "gen", "model"] (.item .directory)

theorem crossedTree_makeDirectories :
    (Disk.makeDirectories (m := StateM FileTree) (crossedFile.ancestors.drop 1)).run crossedTree =
      (.ok (), crossedDirectories) := by
  have habove : crossedFile.ancestors.drop 1 = [⟨"/w/model/x.json/gen/model"⟩,
      ⟨"/w/model/x.json/gen"⟩, ⟨"/w/model/x.json"⟩, ⟨"/w/model"⟩, ⟨"/w"⟩, ⟨"/"⟩] := by
    decide +kernel
  have hmissing : crossedTree.Enters ["w", "model"] "x.json" :=
    ⟨rfl, by decide, by decide, by decide⟩
  have hinner : Disk.FileTree.routeOf ⟨"/w/model/x.json/gen/model"⟩ =
      .ok ⟨["w", "model"] ++ "x.json" :: ["gen"] ++ ["model"], false⟩ := rfl
  have houter : Disk.FileTree.routeOf ⟨"/w/model/x.json/gen"⟩ =
      .ok ⟨["w", "model"] ++ "x.json" :: [] ++ ["gen"], false⟩ := rfl
  have hx : crossedTree.makeDirectory ⟨"/w/model/x.json"⟩ =
      (.ok (), crossedTree.put ["w", "model", "x.json"] (.item .directory)) :=
    Disk.FileTree.makeDirectory_of_descends rfl rfl hmissing rfl
  rw [habove]
  refine Disk.FileTree.makeDirectories_missing (by decide)
    (Disk.FileTree.makeDirectory_of_missing hinner rfl hmissing rfl) ?_
    (Disk.FileTree.makeDirectory_of_descends hinner rfl ⟨rfl, by decide, by decide, by decide⟩ rfl)
  refine Disk.FileTree.makeDirectories_missing (by decide)
    (Disk.FileTree.makeDirectory_of_missing houter rfl hmissing rfl) ?_
    (Disk.FileTree.makeDirectory_of_descends houter rfl ⟨rfl, by decide, by decide, by decide⟩ rfl)
  exact Disk.FileTree.makeDirectories_made (by decide) hx

/-- The text of the one file. -/
def crossedText : String := Stub.classText (.ofNamespace "") ⟨"Foo", "one", []⟩ "1"

/-- The run makes the file of the document. -/
theorem crossedTree_run : ∃ report u,
    (generate crossedArguments ⟨"/"⟩ : StateM FileTree _).run crossedTree = (⟨report, none⟩, u) ∧
      u.readText crossedFile = .ok crossedText := by
  have hadds := Disk.FileTree.adds_makeDirectories (crossedFile.ancestors.drop 1) crossedTree
  rw [crossedTree_makeDirectories] at hadds
  have hunlinked : crossedDirectories.Unlinked := hadds.grows.unlinked crossedTree_unlinked
  have hwritable : crossedDirectories.Writable crossedFile
      (["w", "model", "x.json", "gen", "model"] ++ ["Foo.sample"]) :=
    Disk.FileTree.writable_of_descends rfl rfl ⟨rfl, by decide, by decide, by decide⟩ (.inl rfl)
  obtain ⟨u, hwrite, hstored⟩ : ∃ u, crossedDirectories.writeText crossedFile crossedText =
      (.ok (), u) ∧ Disk.FileTree.Stored crossedDirectories u crossedFile crossedText _ :=
    ⟨_, (Disk.FileTree.writeText_eq_ok_iff hunlinked).mpr ⟨_, hwritable, rfl⟩,
      hwritable.stored crossedText⟩
  have hcall : (Output.diskSink ⟨"/w/model/x.json/gen"⟩).call crossedTree
      (⟨"model/Foo.sample"⟩, crossedText) = (.ok crossedFile, u) := by
    have hfile : (Disk.Path.mk "/w/model/x.json/gen").join ⟨"model/Foo.sample"⟩ = crossedFile := by decide
    rw [Output.diskSink_call, hfile, crossedTree_makeDirectories]
    simp only [hwrite]
  have hsucceeds := Output.Sink.Succeeds.cons hcall (.nil _)
  have haccepted : ∀ x ∈ [((["a.json"], twin "one") : Names × Document)],
      Output.Accepted (generated crossedArguments Settings.default x.2) := by
    intro x hx key hk
    cases List.mem_singleton.mp hx
    have hkey : key = "model/Foo.sample" := List.mem_singleton.mp hk
    exact ⟨⟨"model/Foo.sample"⟩, by rw [hkey]; rfl⟩
  have hcalls : Output.callsOfAll (selection crossedArguments Settings.default).length
      ([((["a.json"], twin "one") : Names × Document)].map fun x =>
        generated crossedArguments Settings.default x.2) =
      [(⟨"model/Foo.sample"⟩, crossedText)] := rfl
  rcases generate_of_ready crossedTree_unlinked crossedTree_ready rfl crossedTree_hasDocuments
    haccepted with ⟨paths, u, hs, hg⟩ | ⟨hstop, -⟩
  · rw [hcalls] at hs
    obtain ⟨-, rfl⟩ := hsucceeds.unique hs
    refine ⟨_, _, hg, ?_⟩
    exact Disk.FileTree.readText_eq_ok_iff.mpr ⟨_, hstored.resolve, hstored.text⟩
  · rw [hcalls] at hstop
    exact absurd hsucceeds (hstop _ _)

/-- **A file in the way of the output directory changes what is generated.** The file is
outside of the output directory and spells no text. Without it the run makes the file of
the document. With it the run still gets past the checks, but there is no such file
afterwards. -/
theorem generate_stopped_by_file : crossedTree.Unlinked ∧ crossedTree.Proper ∧
    Spoiled Settings.default (.bytes [255]) ∧
    ¬ (outputDirectory crossedArguments ⟨"/"⟩ Settings.default).place <+:
      addedPlace crossedArguments ⟨"/"⟩ Settings.default ["x.json"] ∧
    ∃ report report' u u',
      (generate crossedArguments ⟨"/"⟩ : StateM FileTree _).run crossedTree =
        (⟨report, none⟩, u) ∧
      (generate crossedArguments ⟨"/"⟩ : StateM FileTree _).run
        (withFile crossedArguments ⟨"/"⟩ Settings.default crossedTree ["x.json"]
          (.bytes [255])) = (⟨report', none⟩, u') ∧
      u.readText crossedFile = .ok crossedText ∧ ∀ text, u'.readText crossedFile ≠ .ok text := by
  obtain ⟨report, u, hrun, htext⟩ := crossedTree_run
  -- the file is neither removed nor replaced by the run
  have hbeside : Beside ["w", "model", "x.json"] (.bytes [255]) crossedTree
      (crossedTree.put ["w", "model", "x.json"] (.item (.file (.bytes [255])))) := .of_put rfl
  have hunlinked := hbeside.unlinked crossedTree_unlinked
  have hready : Ready crossedArguments ⟨"/"⟩
      (crossedTree.put ["w", "model", "x.json"] (.item (.file (.bytes [255])))) Settings.default :=
    ready_crossed hunlinked (Disk.FileTree.holds_iff.mpr
      ⟨["w", "model"], .directory, Disk.FileTree.resolve_of_descends rfl rfl, rfl⟩) rfl
  obtain ⟨r, -, -, hprep⟩ := prepare_of_ready hready
  have hrun' := generate_run hprep
  rw [job_run_eq] at hrun'
  have hconf := confines_outcomes (jobOf crossedArguments ⟨"/"⟩ Settings.default r)
    (foundFiles (crossedTree.put ["w", "model", "x.json"] (.item (.file (.bytes [255]))))
      (modelDirectory crossedArguments ⟨"/"⟩ Settings.default)) _ hunlinked
  have houtside : ¬ Output.Below (jobOf crossedArguments ⟨"/"⟩ Settings.default r).outDir.place
      ["w", "model", "x.json"] := by
    have hplace : (outputDirectory crossedArguments ⟨"/"⟩ Settings.default).place =
        ["w", "model", "x.json", "gen"] := by decide
    intro h
    have hpre := h.1
    rw [jobOf, hplace] at hpre
    exact absurd hpre (by decide)
  have hkept := (hconf.file ["w", "model", "x.json"] (.bytes [255]) houtside).mpr hbeside.present
  refine ⟨crossedTree_unlinked, ⟨by decide, by decide⟩, .notText _, by decide, report, _, u, _,
    hrun, hrun', htext, fun text hread => ?_⟩
  -- nothing is read through a file
  obtain ⟨place, hresolve, -⟩ := Disk.FileTree.readText_eq_ok_iff.mp hread
  have hnames : (Disk.FileTree.Route.of crossedFile.text).names =
      ["w", "model", "x.json"] ++ "gen" :: ["model", "Foo.sample"] := by decide
  have hd := Disk.FileTree.directory_of_resolve (hconf.grows.unlinked hunlinked) hresolve hnames
  have hland : Disk.landing [] ["w", "model", "x.json"] = ["w", "model", "x.json"] := by decide
  rw [hland, hkept] at hd
  cases hd

end Project
end ModelStubs
