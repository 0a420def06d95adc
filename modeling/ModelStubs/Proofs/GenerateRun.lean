/-
# A run of `generate`

On a tree without links a run goes through the model files in the order of the walk
and writes the stubs of each document once for every generator that was asked for.
No stub is written over a model file, since their names end differently, so every
document is read as it was before the run (`Project.loads_kept`). The calls that a run
makes are therefore known from the documents alone: the disk takes all of them and
every document is reported, or it stops and the report tells an error of the disk
(`Project.generate_of_ready`).

Key definitions: `Project.Ready`, `Project.outputDirectory`, `Project.generated`,
`Project.HasDocuments`, `Project.fullReport`.
Key theorems: `Project.prepare_of_loaded`, `Project.prepare_of_ready`,
`Project.runGenerators_run`, `Project.processFiles_run`, `Project.generate_of_ready`.
-/
import ModelStubs.Project.Generate
import ModelStubs.Proofs.DiskWrites
import ModelStubs.Proofs.LastTexts
import ModelStubs.Proofs.Registries
import ModelStubs.Proofs.StubFiles

namespace ModelStubs
namespace Project

open Disk (Path Names FileTree Content)
open Disk.FileTree (Route)
open Model (DataClass Document Placement)
open Output (Accepted Call Calls Produces LastText callsOf callsOfAll diskSink outputPath)

/-! ### Preparing -/

/-- The directory that a run writes to. -/
def outputDirectory (a : GenerateArguments) (cwd : Path) (s : Settings) : Path :=
  match a.outDir with
  | some out => (cwd.join ⟨a.path⟩).join ⟨out⟩
  | none => s.outPath (cwd.join ⟨a.path⟩)

/-- The directory that a run finds its model files in. -/
def modelDirectory (a : GenerateArguments) (cwd : Path) (s : Settings) : Path :=
  s.modelPath (cwd.join ⟨a.path⟩)

/-- The project's settings load, its model directory is there, and some generators are
selected, all of them registered. -/
structure Ready (a : GenerateArguments) (cwd : Path) (t : FileTree) (s : Settings) : Prop where
  settings : ((Settings.load (cwd.join ⟨a.path⟩) : StateM FileTree _).run t).1 = .ok s
  models : t.holds (modelDirectory a cwd s) = true
  some_selected : selection a s ≠ []
  registered : ∃ r, builtin = .ok r ∧ ∀ name ∈ selection a s, name ∈ r.names

/-- What a run that is ready knows. -/
def jobOf (a : GenerateArguments) (cwd : Path) (s : Settings) (r : Registry) : Job :=
  ⟨s, r, selection a s, modelDirectory a cwd s, outputDirectory a cwd s, a.modelVersion, a.stdout⟩

/-- The registry holds the generator of stubs and no other. -/
theorem builtin_generators {r : Registry} (h : builtin = .ok r) :
    r.generators = [Stub.generator] := by
  unfold builtin Registry.register at h
  split at h
  · cases h
  · cases h
    rfl

/-- Every registered generator makes stubs. -/
theorem run_of_registered {r : Registry} (h : builtin = .ok r) {name : String}
    (hn : name ∈ r.names) (p : Placement) (elements : List Model.Element) (version : String) :
    r.run name p elements version = .ok (Stub.stubs p elements version) := by
  rw [Registry.names, builtin_generators h, List.map_singleton, List.mem_singleton] at hn
  unfold Registry.run Registry.get?
  rw [builtin_generators h, hn]
  rfl

/-- A request after another is answered from the tree that the first leaves. -/
theorem run_bind {α β : Type} (x : StateM FileTree α) (f : α → StateM FileTree β)
    (t : FileTree) : (x >>= f).run t = (f (x.run t).1).run (x.run t).2 := rfl

section Requests

variable (p : Path) (t : FileTree)

theorem run_holds : (Disk.Access.holds p : StateM FileTree _).run t = (t.holds p, t) := rfl

theorem run_readText : (Disk.Access.readText p : StateM FileTree _).run t = (t.readText p, t) :=
  rfl

theorem run_writeText (s : String) :
    (Disk.Access.writeText p s : StateM FileTree _).run t = t.writeText p s := rfl

end Requests

/-- Loading the settings changes nothing. -/
theorem load_settings_state (project : Path) (t : FileTree) :
    ((Settings.load project : StateM FileTree _).run t).2 = t := by
  unfold Settings.load
  rw [run_bind]
  split
  · rw [run_bind]
    split
    · rfl
    · split
      · rfl
      · rfl
  · rfl

/-- Settings are those that the text of their file spells. -/
theorem load_settings_of_text {project : Path} {t : FileTree} {source : String} {s : Settings}
    (hr : t.readText (Settings.file project) = .ok source)
    (hs : Settings.shape.ofText source = .ok s) :
    ((Settings.load project : StateM FileTree _).run t).1 = .ok s := by
  obtain ⟨place, hplace, hfile⟩ := Disk.FileTree.readText_eq_ok_iff.mp hr
  have hholds : t.holds (Settings.file project) = true :=
    Disk.FileTree.holds_iff.mpr ⟨place, _, hplace, hfile⟩
  unfold Settings.load
  rw [run_bind, run_holds, hholds, if_pos rfl, run_bind, run_readText, hr]
  simp only [hs]
  rfl

/-- A project without a settings file has the default settings. -/
theorem load_settings_of_absent {project : Path} {t : FileTree}
    (h : t.holds (Settings.file project) = false) :
    ((Settings.load project : StateM FileTree _).run t).1 = .ok Settings.default := by
  unfold Settings.load
  rw [run_bind, run_holds, h]
  rfl

/-- No name is unknown if each is that of a generator. -/
theorem firstUnknown_eq_none_iff {r : Registry} {names : List String} :
    firstUnknown r names = none ↔ ∀ name ∈ names, name ∈ r.names := by
  simp only [firstUnknown, List.find?_eq_none, Option.isNone_iff_eq_none,
    Registry.get?_eq_none_iff, not_not]

/-- Once the settings are loaded the model directory is looked for, and then the generators. -/
theorem prepare_of_loaded {a : GenerateArguments} {cwd : Path} {t : FileTree} {s : Settings}
    {r : Registry} (hs : ((Settings.load (cwd.join ⟨a.path⟩) : StateM FileTree _).run t).1 = .ok s)
    (hr : builtin = .ok r) : (prepare a cwd : StateM FileTree _).run t =
      (if t.holds (modelDirectory a cwd s) then
        match selected r (selection a s) with
        | .error refusal => .error refusal
        | .ok names => .ok { jobOf a cwd s r with generators := names }
      else .error (.noModelDirectory (modelDirectory a cwd s)), t) := by
  unfold prepare modelDirectory
  rw [run_bind, hs, load_settings_state]
  simp only
  rw [run_bind, run_holds]
  cases t.holds (s.modelPath (cwd.join ⟨a.path⟩)) with
  | false => rfl
  | true =>
    simp only [hr]
    cases selected r (selection a s) with
    | error refusal => rfl
    | ok names => rfl

/-- A run that is ready starts, and nothing has changed yet. -/
theorem prepare_of_ready {a : GenerateArguments} {cwd : Path} {t : FileTree} {s : Settings}
    (h : Ready a cwd t s) : ∃ r, builtin = .ok r ∧ (∀ name ∈ selection a s, name ∈ r.names) ∧
      (prepare a cwd : StateM FileTree _).run t = (.ok (jobOf a cwd s r), t) := by
  obtain ⟨r, hr, hreg⟩ := h.registered
  have hselected : selected r (selection a s) = .ok (selection a s) := by
    have hsome : (selection a s).isEmpty = false := by simpa using h.some_selected
    rw [selected, hsome, firstUnknown_eq_none_iff.mpr hreg]
    rfl
  refine ⟨r, hr, hreg, ?_⟩
  rw [prepare_of_loaded h.settings hr, if_pos h.models, hselected]
  rfl

/-! ### One document -/

/-- The files that a document makes: their packages follow the namespace of the settings,
else that of the document, and their version is the one asked for, else that of the
settings, else that of the document. -/
def generated (a : GenerateArguments) (s : Settings) (d : Document) : GeneratedFiles :=
  Stub.stubs (.ofNamespace (s.namespaceName.getD d.namespaceName)) d.elements
    ((a.modelVersion.or s.version).getD d.version)

theorem placement_jobOf (a : GenerateArguments) (cwd : Path) (s : Settings) (r : Registry)
    (d : Document) : (jobOf a cwd s r).placement d =
      .ofNamespace (s.namespaceName.getD d.namespaceName) := by
  unfold Job.placement jobOf
  cases s.namespaceName with
  | none => rfl
  | some n => rfl

/-- The sink does not take all of the calls. -/
def Stops (root : Path) (t : FileTree) (calls : List Call) : Prop :=
  ∀ paths u, ¬ (diskSink root).Succeeds t calls paths u

/-- What stops calls stops them with others behind. -/
theorem Stops.append {root : Path} {t : FileTree} {calls : List Call} (h : Stops root t calls)
    (more : List Call) : Stops root t (calls ++ more) := by
  intro paths u hs
  obtain ⟨ps, v, -, h1, -⟩ := hs.split
  exact h ps v h1

/-- What stops calls stops them behind others that are taken. -/
theorem Stops.behind {root : Path} {t u : FileTree} {calls more : List Call} {paths : List Path}
    (hs : (diskSink root).Succeeds t calls paths u) (h : Stops root u more) :
    Stops root t (calls ++ more) := by
  intro _ _ hall
  obtain ⟨_, u', qs, h1, h2⟩ := hall.split
  obtain ⟨-, rfl⟩ := hs.unique h1
  exact h qs _ h2

/-- Delivering files to a disk succeeds by taking all calls, or fails there. -/
theorem deliver_run {job : Job} (hdisk : job.stdout = false) {files : GeneratedFiles}
    (h : Accepted files) (t : FileTree) :
    (∃ paths u, (diskSink job.outDir).Succeeds t (callsOf files) paths u ∧
      (job.deliver files : StateM FileTree _).run t = (([], .ok files.size), u)) ∨
    Stops job.outDir t (callsOf files) ∧
      ∃ e u, (job.deliver files : StateM FileTree _).run t = (([], .error (.disk e)), u) := by
  have hr := Output.resolved_eq_ok_iff.mpr (Output.calls_callsOf h)
  unfold Job.deliver
  rw [hdisk, if_neg (by decide)]
  rcases (diskSink job.outDir).succeeds_or_fails (callsOf files) t with
    ⟨ps, u, hs⟩ | ⟨before, c, after, ps, u, e, v, hc, hs, hf⟩
  · refine .inl ⟨ps, u, hs, ?_⟩
    rw [run_bind, Output.writeFiles_of_resolved hr, Output.writeAll_of_succeeds hs]
    show (([], Except.ok ps.length), u) = _
    rw [hs.length_eq, Output.length_callsOf]
  · refine .inr ⟨?_, e, v, ?_⟩
    · rw [hc]
      exact hs.not_succeeds hf
    · rw [run_bind, Output.writeFiles_of_resolved hr, hc, Output.writeAll_of_fails hs hf]
      rfl

/-- Running registered generators writes the stubs of a document once for each. -/
theorem runGenerators_run {a : GenerateArguments} {cwd : Path} {s : Settings} {r : Registry}
    (hr : builtin = .ok r) (hdisk : a.stdout = false) {d : Document}
    (h : Accepted (generated a s d)) : ∀ (names : List String),
    (∀ name ∈ names, name ∈ r.names) → ∀ t : FileTree,
    (∃ paths u, (diskSink (outputDirectory a cwd s)).Succeeds t
        (List.replicate names.length (callsOf (generated a s d))).flatten paths u ∧
      ((jobOf a cwd s r).runGenerators d names : StateM FileTree _).run t =
        (([], .ok (names.length * (generated a s d).size)), u)) ∨
    Stops (outputDirectory a cwd s) t
        (List.replicate names.length (callsOf (generated a s d))).flatten ∧
      ∃ e u, ((jobOf a cwd s r).runGenerators d names : StateM FileTree _).run t =
        (([], .error (.disk e)), u)
  | [], _, t => .inl ⟨[], t, .nil t, by rw [List.length_nil, Nat.zero_mul]; rfl⟩
  | name :: names, hreg, t => by
    have hrun : (jobOf a cwd s r).registry.run name ((jobOf a cwd s r).placement d) d.elements
        ((jobOf a cwd s r).version d) = .ok (generated a s d) := by
      rw [placement_jobOf]
      exact run_of_registered hr (hreg name List.mem_cons_self) _ _ _
    unfold Job.runGenerators
    simp only [hrun]
    have hstdout : (jobOf a cwd s r).stdout = false := hdisk
    rcases deliver_run hstdout h t with ⟨ps, u, hs, hd⟩ | ⟨hstop, e, u, hd⟩
    · have hreg' : ∀ name ∈ names, name ∈ r.names :=
        fun n hn => hreg n (List.mem_cons_of_mem _ hn)
      rcases runGenerators_run hr hdisk h names hreg' u with
        ⟨qs, v, hs', hg⟩ | ⟨hstop, e, v, hg⟩
      · refine .inl ⟨ps ++ qs, v, hs.append hs', ?_⟩
        rw [run_bind, hd]
        show (StateT.run ((jobOf a cwd s r).runGenerators d names >>= _) u) = _
        rw [run_bind, hg, List.length_cons, Nat.succ_mul, Nat.add_comm]
        rfl
      · refine .inr ⟨hstop.behind hs, e, v, ?_⟩
        rw [run_bind, hd]
        show (StateT.run ((jobOf a cwd s r).runGenerators d names >>= _) u) = _
        rw [run_bind, hg]
        rfl
    · refine .inr ⟨hstop.append _, e, u, ?_⟩
      rw [run_bind, hd]
      rfl

/-! ### Model files are kept -/

/-- A name with a longer ending is neither of the special names. -/
theorem append_ne_special {s t : String} (h : 2 < t.length) : s ++ t ≠ "." ∧ s ++ t ≠ ".." := by
  have hlength : ∀ d : String, d.length ≤ 2 → s ++ t ≠ d := by
    intro d hd e
    rw [← e, String.length_append] at hd
    omega
  exact ⟨hlength "." (by decide), hlength ".." (by decide)⟩

theorem append_json_ne_append_sample (s t : String) : s ++ ".json" ≠ t ++ ".sample" := by
  intro e
  have hlast := congrArg (fun u => u.toList.getLast?) e
  simp [String.toList_append, List.getLast?_append] at hlast

/-- A model file stands under a name with its ending. -/
theorem place_of_modelFile {t : FileTree} (ht : t.Unlinked) {dir : Path} {names place : Names}
    (hm : isModelFile dir names = true) (h : t.resolve (dir.below names) = .ok place) :
    ∃ q, place.getLast? = some (q ++ ".json") := by
  have hending : ∀ name, Disk.nameEnding? name = some "json" → ∃ q, name = q ++ ".json" := by
    intro name hn
    obtain ⟨-, q, -, hq⟩ := Disk.FileTree.nameEnding?_eq_some_iff.mp hn
    exact ⟨q, hq⟩
  unfold isModelFile at hm
  split at hm
  · next ending he =>
    rw [beq_iff_eq.mp hm, Option.bind_eq_some_iff] at he
    obtain ⟨name, hname, he⟩ := he
    obtain ⟨q, rfl⟩ := hending name he
    rcases List.eq_nil_or_concat names with rfl | ⟨init, c, rfl⟩
    · obtain ⟨xs, dots, hs, hd, hn⟩ := Disk.FileTree.names_of_fileName hname
      exact ⟨q, Disk.FileTree.getLast?_place ht h hs hd hn⟩
    · rw [List.concat_eq_append, List.getLast?_concat] at hname
      cases hname
      have hbelow : dir.below (init.concat (q ++ ".json")) =
          (dir.below init).join ⟨q ++ ".json"⟩ := by
        rw [List.concat_eq_append, Path.below, List.foldl_append]
        rfl
      obtain ⟨s, hs⟩ := Disk.FileTree.text_join (dir.below init) ⟨q ++ ".json"⟩
      obtain ⟨q', hq'⟩ : ∃ q', (Route.of (s ++ q ++ ".json")).names.getLast? =
          some (q' ++ ".json") := Disk.FileTree.last_name_append (by decide) (by decide)
      rw [hbelow] at h
      rw [String.append_assoc, ← hs] at hq'
      obtain ⟨xs, hxs⟩ := List.getLast?_eq_some_iff.mp hq'
      exact ⟨q', Disk.FileTree.getLast?_place ht h hxs (by simp) (append_ne_special (by decide))⟩
  · cases hm

/-- A stub is written under a name with the ending of stubs. -/
theorem place_of_call {t : FileTree} (ht : t.Unlinked) {root : Path} {a : GenerateArguments}
    {s : Settings} {d : Document} (hacc : Accepted (generated a s d)) {c : Call}
    (hc : c ∈ callsOf (generated a s d)) {place : Names}
    (h : t.resolve (root.join c.1) = .ok place) :
    ∃ q, place.getLast? = some (q ++ ".sample") := by
  obtain ⟨e, he, hp, -⟩ := (Output.calls_callsOf hacc).exists_entry hc
  obtain ⟨hsafe, hpath⟩ := Output.outputPath_eq_ok_iff.mp hp
  obtain ⟨q, hq⟩ := Stub.last_part (List.mem_map_of_mem he)
  obtain ⟨xs, hxs⟩ := List.getLast?_eq_some_iff.mp hq
  have hparts : Disk.FileTree.partNames (Output.keyParts e.1) = xs ++ [q ++ ".sample"] := hxs
  have hnames : (Route.of (root.join c.1).text).names =
      ((Route.of root.text).names ++ xs) ++ [q ++ ".sample"] := by
    rw [hpath, Disk.FileTree.route_join root (Output.plainParts_keyParts hsafe), hparts,
      List.append_assoc]
  exact ⟨q, Disk.FileTree.getLast?_place ht h hnames (by simp) (append_ne_special (by decide))⟩

/-- The document that a path leads to can be loaded. -/
def Loads (t : FileTree) (path : Path) (d : Document) : Prop :=
  ((Document.load path : StateM FileTree _).run t).1 = .ok d

theorem load_run (path : Path) (t : FileTree) :
    (Document.load path : StateM FileTree _).run t =
      (match t.readText path with
      | .error e => .error (.unreadable path e)
      | .ok source =>
        match Document.ofText source with
        | .error f => .error (.invalid f)
        | .ok d => .ok d, t) := by
  unfold Document.load
  rw [run_bind, run_readText]
  rcases t.readText path with e | source
  · rfl
  · simp only
    rcases Document.ofText source with f | d
    · rfl
    · rfl

theorem loads_iff {t : FileTree} {path : Path} {d : Document} :
    Loads t path d ↔ ∃ source, t.readText path = .ok source ∧ Document.ofText source = .ok d := by
  unfold Loads
  rw [load_run]
  constructor
  · intro h
    simp only at h
    split at h
    · cases h
    · next source hs =>
      split at h
      · cases h
      · next d' hd =>
        cases h
        exact ⟨source, hs, hd⟩
  · rintro ⟨source, hs, hd⟩
    simp only [hs, hd]

/-- Writing the stubs of a document changes no model file. -/
theorem loads_kept {root : Path} {t u : FileTree} (ht : t.Unlinked) {a : GenerateArguments}
    {s : Settings} {d : Document} (hacc : Accepted (generated a s d)) {calls : List Call}
    (hcalls : ∀ c ∈ calls, c ∈ callsOf (generated a s d)) (h : Output.OnDisk root calls t u)
    {dir : Path} {names : Names} (hm : isModelFile dir names = true) {d' : Document}
    (hl : Loads t (dir.below names) d') : Loads u (dir.below names) d' := by
  obtain ⟨source, hs, hd⟩ := loads_iff.mp hl
  obtain ⟨place, hplace, hfile⟩ := Disk.FileTree.readText_eq_ok_iff.mp hs
  obtain ⟨q, hq⟩ := place_of_modelFile ht hm hplace
  refine loads_iff.mpr ⟨source, ?_, hd⟩
  refine Disk.FileTree.readText_eq_ok_iff.mpr ⟨place, h.grows.resolve hplace, ?_⟩
  rw [h.others]
  · exact hfile
  · intro c hc hcplace
    obtain ⟨q', hq'⟩ := place_of_call (h.grows.unlinked ht) hacc (hcalls c hc) hcplace
    rw [hq] at hq'
    injection hq' with e
    exact append_json_ne_append_sample q q' e

/-! ### All documents -/

/-- How many files a document makes: one for each name of a class, each time a generator
is run. -/
def fileCount (a : GenerateArguments) (s : Settings) (d : Document) : Nat :=
  (selection a s).length * (d.classes.map DataClass.name).toFinset.card

/-- The line on a document that was processed. -/
def countLine (a : GenerateArguments) (s : Settings) (x : Names × Document) : Line :=
  resultLine ("/".intercalate x.1) (.ok (fileCount a s x.2))

/-- The file is a model file, its document loads, and no key of its stubs is refused. -/
structure Sound (a : GenerateArguments) (cwd : Path) (s : Settings) (t : FileTree)
    (x : Names × Document) : Prop where
  isModel : isModelFile (modelDirectory a cwd s) x.1 = true
  loads : Loads t ((modelDirectory a cwd s).below x.1) x.2
  accepted : Accepted (generated a s x.2)

/-- The line is on a file that could not be written. -/
def TellsDiskError (line : Line) : Prop :=
  ∃ shown e, line = resultLine shown (.error (.output (.disk e)))

/-- A file whose document loads is processed by running the generators. -/
theorem processFile_run {job : Job} {t : FileTree} {file : Path} {d : Document}
    (h : Loads t file d) : (processFile job file : StateM FileTree _).run t =
      match (job.runGenerators d job.generators : StateM FileTree _).run t with
      | ((shown, .error f), u) => ((shown, .error (.output f)), u)
      | ((shown, .ok count), u) => ((shown, .ok count), u) := by
  have hload : (Document.load file : StateM FileTree _).run t = (.ok d, t) := by
    refine Prod.ext h ?_
    rw [load_run]
  unfold processFile
  rw [run_bind, hload]
  simp only
  rw [run_bind]
  rcases (job.runGenerators d job.generators : StateM FileTree _).run t with ⟨⟨_, _ | _⟩, u⟩
  · rfl
  · rfl

/-- Going through the files adds one line for each, behind the lines that it shows. -/
theorem processFiles_cons {job : Job} {tally : Tally} {names : Names} {files : List Names}
    {t u : FileTree} {shown : Report} {result : Except FileFailure Nat}
    (h : (processFile job (job.modelDir.below names) : StateM FileTree _).run t =
      ((shown, result), u)) :
    (processFiles job tally (names :: files) : StateM FileTree _).run t =
      match (processFiles job (tally.add result) files : StateM FileTree _).run u with
      | ((report, tally'), v) =>
        ((shown ++ resultLine ("/".intercalate names) result :: report, tally'), v) := by
  rw [processFiles, run_bind, h]
  show StateT.run (processFiles job (tally.add result) files >>= _) u = _
  rw [run_bind]
  rfl

/-- A sound model file is processed by writing its stubs, or an error of the disk is
the result. -/
theorem processFile_of_sound {a : GenerateArguments} {cwd : Path} {s : Settings} {r : Registry}
    (hr : builtin = .ok r) (hreg : ∀ name ∈ selection a s, name ∈ r.names)
    (hdisk : a.stdout = false) {t : FileTree} {x : Names × Document} (h : Sound a cwd s t x) :
    (∃ paths u, (diskSink (outputDirectory a cwd s)).Succeeds t
        (List.replicate (selection a s).length (callsOf (generated a s x.2))).flatten paths u ∧
      (processFile (jobOf a cwd s r) ((modelDirectory a cwd s).below x.1) :
        StateM FileTree _).run t = (([], .ok (fileCount a s x.2)), u)) ∨
    Stops (outputDirectory a cwd s) t
        (List.replicate (selection a s).length (callsOf (generated a s x.2))).flatten ∧
      ∃ e u, (processFile (jobOf a cwd s r) ((modelDirectory a cwd s).below x.1) :
        StateM FileTree _).run t = (([], .error (.output (.disk e))), u) := by
  have hsize : (generated a s x.2).size =
      (x.2.classes.map DataClass.name).toFinset.card := Stub.size_stubs _ _ _
  have hgenerators : (jobOf a cwd s r).generators = selection a s := rfl
  rw [processFile_run h.loads, hgenerators, fileCount, ← hsize]
  rcases runGenerators_run hr hdisk h.accepted (selection a s) hreg t with
    ⟨ps, u, hs, hg⟩ | ⟨hstop, e, u, hg⟩
  · exact .inl ⟨ps, u, hs, by rw [hg]⟩
  · exact .inr ⟨hstop, e, u, by rw [hg]⟩

theorem mem_of_mem_repeated {n : Nat} {files : GeneratedFiles} {c : Call}
    (h : c ∈ (List.replicate n (callsOf files)).flatten) : c ∈ callsOf files := by
  obtain ⟨calls, hm, hc⟩ := List.mem_flatten.mp h
  rw [List.eq_of_mem_replicate hm] at hc
  exact hc

/-- After the stubs of a document were written the other model files are still sound. -/
theorem Sound.kept {a : GenerateArguments} {cwd : Path} {s : Settings} {t u : FileTree}
    {x : Names × Document} (h : Sound a cwd s t x) (ht : t.Unlinked) {root : Path} {n : Nat}
    {d : Document} (hacc : Accepted (generated a s d))
    (hd : Output.OnDisk root (List.replicate n (callsOf (generated a s d))).flatten t u) :
    Sound a cwd s u x :=
  ⟨h.isModel, loads_kept ht hacc (fun _ => mem_of_mem_repeated) hd h.isModel h.loads, h.accepted⟩

/-- Going through sound model files writes the stubs of all documents in order, or an
error of the disk is told. -/
theorem processFiles_run {a : GenerateArguments} {cwd : Path} {s : Settings} {r : Registry}
    (hr : builtin = .ok r) (hreg : ∀ name ∈ selection a s, name ∈ r.names)
    (hdisk : a.stdout = false) : ∀ (docs : List (Names × Document)) (t : FileTree) (tally : Tally),
    t.Unlinked → (∀ x ∈ docs, Sound a cwd s t x) →
    (∃ paths u, (diskSink (outputDirectory a cwd s)).Succeeds t
        (callsOfAll (selection a s).length (docs.map fun x => generated a s x.2)) paths u ∧
      (processFiles (jobOf a cwd s r) tally (docs.map Prod.fst) : StateM FileTree _).run t =
        ((docs.map (countLine a s), ⟨tally.processed + docs.length, tally.failed⟩), u)) ∨
    Stops (outputDirectory a cwd s) t
        (callsOfAll (selection a s).length (docs.map fun x => generated a s x.2)) ∧
      ∃ line ∈ ((processFiles (jobOf a cwd s r) tally (docs.map Prod.fst) :
        StateM FileTree _).run t).1.1, TellsDiskError line
  | [], t, tally, _, _ => .inl ⟨[], t, .nil t, rfl⟩
  | x :: docs, t, tally, ht, hx => by
    have hsound := hx x List.mem_cons_self
    rcases processFile_of_sound hr hreg hdisk hsound with
      ⟨ps, u, hs, hfile⟩ | ⟨hstop, e, u, hfile⟩
    · have hcons : (processFiles (jobOf a cwd s r) tally ((x :: docs).map Prod.fst) :
        StateM FileTree _).run t = _ := processFiles_cons hfile
      rw [hcons]
      have hd := Output.onDisk_of_succeeds hs ht fun c hc =>
        (Output.calls_callsOf hsound.accepted).plain c (mem_of_mem_repeated hc)
      have hrest : ∀ y ∈ docs, Sound a cwd s u y := fun y hy =>
        (hx y (List.mem_cons_of_mem _ hy)).kept ht hsound.accepted hd
      rcases processFiles_run hr hreg hdisk docs u (tally.add (.ok (fileCount a s x.2)))
        (hd.grows.unlinked ht) hrest with ⟨qs, v, hs', hp⟩ | ⟨hstop, line, hl, htell⟩
      · refine .inl ⟨ps ++ qs, v, hs.append hs', ?_⟩
        rw [hp, List.length_cons, Nat.add_comm docs.length, ← Nat.add_assoc]
        rfl
      · exact .inr ⟨hstop.behind hs, line, List.mem_cons_of_mem _ hl, htell⟩
    · have hcons : (processFiles (jobOf a cwd s r) tally ((x :: docs).map Prod.fst) :
        StateM FileTree _).run t = _ := processFiles_cons hfile
      refine .inr ⟨hstop.append _, resultLine ("/".intercalate x.1) (.error (.output (.disk e))),
        ?_, _, e, rfl⟩
      rw [hcons]
      exact List.mem_cons_self

/-! ### The run -/

/-- The model files are those of the documents, in the order of the walk, and all of them
load. -/
structure HasDocuments (a : GenerateArguments) (cwd : Path) (t : FileTree) (s : Settings)
    (docs : List (Names × Document)) : Prop where
  files : ((modelFiles (modelDirectory a cwd s) : StateM FileTree _).run t).1 = docs.map Prod.fst
  loads : ∀ x ∈ docs, Loads t ((modelDirectory a cwd s).below x.1) x.2

/-- The report on a run in which no document fails. -/
def fullReport (a : GenerateArguments) (s : Settings) (docs : List (Names × Document)) :
    Report :=
  .out [heading "🔨 Generating from model files..."] ::
    if docs.isEmpty then [.out [yellow "⚠️  No model files found"]]
    else
      .plain ("Found " ++ toString docs.length ++ " files") :: docs.map (countLine a s) ++
        summary ⟨docs.length, 0⟩

theorem generate_run {a : GenerateArguments} {cwd : Path} {t : FileTree} {job : Job}
    (h : (prepare a cwd : StateM FileTree _).run t = (.ok job, t)) :
    (generate a cwd : StateM FileTree _).run t =
      (⟨((job.run : StateM FileTree _).run t).1, none⟩,
        ((job.run : StateM FileTree _).run t).2) := by
  unfold generate
  rw [run_bind, h]
  rfl

theorem job_run_nil {job : Job} {t : FileTree}
    (h : ((modelFiles job.modelDir : StateM FileTree _).run t).1 = []) :
    (job.run : StateM FileTree _).run t =
      ([.out [heading "🔨 Generating from model files..."],
        .out [yellow "⚠️  No model files found"]], t) := by
  unfold Job.run
  rw [run_bind, h]
  rfl

theorem job_run_cons {job : Job} {t u : FileTree} {names : Names} {files : List Names}
    {report : Report} {tally : Tally}
    (h : ((modelFiles job.modelDir : StateM FileTree _).run t).1 = names :: files)
    (hp : (processFiles job ⟨0, 0⟩ (names :: files) : StateM FileTree _).run t =
      ((report, tally), u)) :
    (job.run : StateM FileTree _).run t =
      (.out [heading "🔨 Generating from model files..."] ::
        .plain ("Found " ++ toString (names :: files).length ++ " files") :: report ++
          summary tally, u) := by
  unfold Job.run
  rw [run_bind, h]
  show StateT.run (processFiles job ⟨0, 0⟩ (names :: files) >>= _) t = _
  rw [run_bind, hp]
  rfl

/-- The model files of documents are sound if no key is refused. -/
theorem HasDocuments.sound {a : GenerateArguments} {cwd : Path} {t : FileTree} {s : Settings}
    {docs : List (Names × Document)} (h : HasDocuments a cwd t s docs)
    (hkeys : ∀ x ∈ docs, Accepted (generated a s x.2)) : ∀ x ∈ docs, Sound a cwd s t x := by
  intro x hx
  have hm : x.1 ∈ (t.filesBelow (modelDirectory a cwd s)).filter
      (isModelFile (modelDirectory a cwd s)) := by
    have hfiles : (t.filesBelow (modelDirectory a cwd s)).filter
        (isModelFile (modelDirectory a cwd s)) = docs.map Prod.fst := h.files
    rw [hfiles]
    exact List.mem_map_of_mem hx
  exact ⟨(List.mem_filter.mp hm).2, h.loads x hx, hkeys x hx⟩

/-- A full report tells no error. -/
theorem error_notMem_fullReport (a : GenerateArguments) (s : Settings)
    (docs : List (Names × Document)) (shown : String) (f : FileFailure) :
    resultLine shown (.error f) ∉ fullReport a s docs := by
  intro h
  unfold fullReport at h
  rcases List.mem_cons.mp h with h | h
  · cases h
  · split at h
    · rw [List.mem_singleton] at h
      cases h
    · rcases List.mem_append.mp h with h | h
      · rcases List.mem_cons.mp h with h | h
        · cases h
        · obtain ⟨x, -, hx⟩ := List.mem_map.mp h
          cases hx
      · simp only [summary, if_pos, List.mem_cons, List.not_mem_nil, or_false] at h
        rcases h with h | h
        · cases h
        · cases h

theorem not_tellsDiskError_of_fullReport {a : GenerateArguments} {s : Settings}
    {docs : List (Names × Document)} {line : Line} (h : line ∈ fullReport a s docs) :
    ¬ TellsDiskError line := by
  rintro ⟨shown, e, rfl⟩
  exact error_notMem_fullReport a s docs shown _ h

/-- The sink takes the calls of all documents in order and every document is reported, or
it stops and an error of the disk is told. -/
theorem generate_of_ready {a : GenerateArguments} {cwd : Path} {t : FileTree}
    {s : Settings} {docs : List (Names × Document)} (hlinks : t.Unlinked)
    (hready : Ready a cwd t s) (hdisk : a.stdout = false) (hdocs : HasDocuments a cwd t s docs)
    (hkeys : ∀ x ∈ docs, Accepted (generated a s x.2)) :
    (∃ paths u, (diskSink (outputDirectory a cwd s)).Succeeds t
        (callsOfAll (selection a s).length (docs.map fun x => generated a s x.2)) paths u ∧
      (generate a cwd : StateM FileTree _).run t = (⟨fullReport a s docs, none⟩, u)) ∨
    Stops (outputDirectory a cwd s) t
        (callsOfAll (selection a s).length (docs.map fun x => generated a s x.2)) ∧
      ∃ line ∈ ((generate a cwd : StateM FileTree _).run t).1.report, TellsDiskError line := by
  obtain ⟨r, hr, hreg, hprep⟩ := prepare_of_ready hready
  rw [generate_run hprep]
  cases docs with
  | nil =>
    have hrun : ((jobOf a cwd s r).run : StateM FileTree _).run t = _ := job_run_nil hdocs.files
    rw [hrun]
    exact .inl ⟨[], t, .nil t, rfl⟩
  | cons x docs =>
    have hsound := hdocs.sound hkeys
    rcases processFiles_run hr hreg hdisk (x :: docs) t ⟨0, 0⟩ hlinks hsound with
      ⟨ps, u, hs, hp⟩ | ⟨hstop, line, hl, htell⟩
    · have hrun : ((jobOf a cwd s r).run : StateM FileTree _).run t = _ :=
        job_run_cons hdocs.files hp
      rw [hrun]
      refine .inl ⟨ps, u, hs, ?_⟩
      rw [fullReport, if_neg (by simp), Nat.zero_add]
      simp
    · rcases hp : (processFiles (jobOf a cwd s r) ⟨0, 0⟩ ((x :: docs).map Prod.fst) :
        StateM FileTree _).run t with ⟨⟨report, tally⟩, u⟩
      rw [hp] at hl
      have hrun : ((jobOf a cwd s r).run : StateM FileTree _).run t = _ :=
        job_run_cons hdocs.files hp
      rw [hrun]
      refine .inr ⟨hstop, line, ?_, htell⟩
      simp [hl]

/-- A run whose output directories are all there reports every document. -/
theorem generate_of_accessible {a : GenerateArguments} {cwd : Path} {t : FileTree}
    {s : Settings} {docs : List (Names × Document)} (hlinks : t.Unlinked)
    (hready : Ready a cwd t s) (hdisk : a.stdout = false) (hdocs : HasDocuments a cwd t s docs)
    (hkeys : ∀ x ∈ docs, Accepted (generated a s x.2))
    (h : ∀ x ∈ docs, ∀ c ∈ callsOf (generated a s x.2),
      Output.Accessible t ((outputDirectory a cwd s).join c.1)) :
    ∃ u, (generate a cwd : StateM FileTree _).run t = (⟨fullReport a s docs, none⟩, u) := by
  rcases generate_of_ready hlinks hready hdisk hdocs hkeys with ⟨-, u, -, hg⟩ | ⟨hstop, -⟩
  · exact ⟨u, hg⟩
  · have hall : ∀ c ∈ callsOfAll (selection a s).length (docs.map fun x => generated a s x.2),
        Output.Accessible t ((outputDirectory a cwd s).join c.1) := by
      intro c hc
      obtain ⟨files, hf, hc⟩ := Output.mem_callsOfAll hc
      obtain ⟨x, hx, rfl⟩ := List.mem_map.mp hf
      exact h x hx c hc
    obtain ⟨paths, u, hs⟩ := Output.succeeds_of_accessible hlinks hall
    exact absurd hs (hstop paths u)

end Project
end ModelStubs
