/-
# Asking on the command line or in the settings

The output directory, the generators and the version of a run can be asked for on the
command line or in the settings. Each of the three is decided by code of its own, but what
a run does depends only on what was decided (`Project.Job.Agrees`). The settings file holds
different texts in the two runs; nothing looks at it again once the settings are loaded, as
long as it is not one of the model files. So both runs report the same and leave the same
files (`Project.run_flags_eq_run_settings`).

If the settings file is given as the model directory it is a model file, and its text
counts twice (`Project.run_flags_ne_run_settings`).

Key definitions: `Project.GenerateArguments.words`, `Project.Job.Agrees`.
Key theorems: `Project.ofWords_request`, `Project.outcomes_congr`,
`Project.generate_of_sameDecisions`, `Project.run_flags_eq_run_settings`.
-/
import ModelStubs.Project.Command
import ModelStubs.Proofs.NewProjects
import ModelStubs.Proofs.ReplacedFile
import ModelStubs.Proofs.RunTwice

namespace ModelStubs
namespace Project

open Disk (Path FileTree Names)
open Disk.FileTree (Alike)
open Model (Document)

/-! ### The words of a request -/

/-- An option with its value. -/
def optionWord (long value : String) : String := "--" ++ long ++ "=" ++ value

/-- A command line that asks for a run with the given arguments. -/
def GenerateArguments.words (a : GenerateArguments) : List String :=
  "generate" :: (a.generators.map ("-g=" ++ ·) ++
    ((a.outDir.map (optionWord "out-dir")).toList ++
      ((a.modelVersion.map (optionWord "model-version")).toList ++
        ((if a.stdout then ["--stdout"] else []) ++ ["--", a.path]))))

/-- Each generator is taken down behind those before it. -/
theorem scan_generators (words : List String) : ∀ (names : List String) (g : Given),
    scan generateGrammar g none (names.map ("-g=" ++ ·) ++ words) =
      scan generateGrammar { g with switches := g.switches ++ names.map (("generator", ·)) }
        none words
  | [], g => by simp
  | name :: names, g => by
    have hword : Word.of ("-g=" ++ name) = .letters ('g' :: '=' :: name.toList) := by
      simp [Word.of, String.toList_append]
    have hletters : scanLetters generateGrammar g ('g' :: '=' :: name.toList) =
        .ok ({ g with switches := g.switches ++ [("generator", name)] }, none) := by
      simp [scanLetters, Grammar.letter?, generateGrammar, Switch.takesValue, Given.note]
    have hfirst : scan generateGrammar g none
          (("-g=" ++ name) :: (names.map ("-g=" ++ ·) ++ words)) =
        scan generateGrammar { g with switches := g.switches ++ [("generator", name)] } none
          (names.map ("-g=" ++ ·) ++ words) := by
      simp only [scan, hword, hletters]
    rw [List.map_cons, List.cons_append, hfirst, scan_generators words names]
    simp

/-- An option is taken down if it was not given before. -/
theorem scan_optional {g : Given} {w : Switch} (words : List String)
    (hname : ∀ c ∈ w.long.toList, c ≠ '=') (hw : generateGrammar.long? w.long = some w)
    (hsingle : w.arity = .single) (hnew : g.has w.long = false) : ∀ value : Option String,
    scan generateGrammar g none ((value.map (optionWord w.long)).toList ++ words) =
      scan generateGrammar
        { g with switches := g.switches ++ (value.map ((w.long, ·))).toList } none words
  | none => by simp
  | some value => by
    have hword : Word.of (optionWord w.long value) =
        .long (w.long.toList ++ '=' :: value.toList) := by
      cases hlong : w.long.toList with
      | nil => simp [Word.of, optionWord, String.toList_append, hlong]
      | cons c cs => simp [Word.of, optionWord, String.toList_append, hlong]
    have htake : (w.long.toList ++ '=' :: value.toList).takeWhile (· != '=') =
        w.long.toList := by
      rw [List.takeWhile_append_of_pos fun c hc => by simpa using hname c hc]
      simp
    have hdrop : (w.long.toList ++ '=' :: value.toList).drop w.long.toList.length =
        '=' :: value.toList := List.drop_left
    have hlong : scanLong generateGrammar g (w.long.toList ++ '=' :: value.toList) =
        .ok ({ g with switches := g.switches ++ [(w.long, value)] }, none) := by
      unfold scanLong
      simp only [htake, String.ofList_toList, hw, hdrop, Switch.takesValue, hsingle, Given.note,
        hnew]
      rfl
    show scan generateGrammar g none (optionWord w.long value :: words) = _
    simp only [scan, hword, hlong]
    rfl

theorem scan_outDir {g : Given} (words : List String) (hnew : g.has "out-dir" = false)
    (value : Option String) :
    scan generateGrammar g none ((value.map (optionWord "out-dir")).toList ++ words) =
      scan generateGrammar
        { g with switches := g.switches ++ (value.map (("out-dir", ·))).toList } none words :=
  scan_optional (w := ⟨"out-dir", some 'o', .single⟩) words (by simp) rfl rfl hnew value

theorem scan_modelVersion {g : Given} (words : List String)
    (hnew : g.has "model-version" = false) (value : Option String) :
    scan generateGrammar g none ((value.map (optionWord "model-version")).toList ++ words) =
      scan generateGrammar
        { g with switches := g.switches ++ (value.map (("model-version", ·))).toList } none words :=
  scan_optional (w := ⟨"model-version", none, .single⟩) words (by simp) rfl rfl hnew value

theorem scan_stdout {g : Given} (path : String) (hoperands : g.operands = [])
    (hnew : g.has "stdout" = false) (stdout : Bool) :
    scan generateGrammar g none ((if stdout then ["--stdout"] else []) ++ ["--", path]) =
      .ok (⟨g.switches ++ (if stdout then [("stdout", "")] else []), [path]⟩, []) := by
  cases stdout with
  | false =>
    simp [scan, Word.of, scanOperands, Given.operand, hoperands, generateGrammar]
  | true =>
    simp [scan, Word.of, scanLong, scanOperands, Given.operand, Given.raise, Given.note, hnew,
      Grammar.long?, Switch.takesValue, hoperands, generateGrammar]

/-- What is taken down of a command line with the given arguments. -/
def GenerateArguments.given (a : GenerateArguments) : Given :=
  ⟨a.generators.map (("generator", ·)) ++ (a.outDir.map (("out-dir", ·))).toList ++
    (a.modelVersion.map (("model-version", ·))).toList ++
      (if a.stdout then [("stdout", "")] else []), [a.path]⟩

theorem scanCommand_words (a : GenerateArguments) :
    scanCommand generateGrammar a.words.tail = .ok a.given := by
  unfold scanCommand GenerateArguments.words
  rw [List.tail_cons, scan_generators, scan_outDir, scan_modelVersion, scan_stdout]
  · simp [GenerateArguments.given, Given.none]
  · rfl
  · simp [Given.none, Given.has]
  · simp [Given.none, Given.has]
  · simp [Given.none, Given.has]

theorem ofGenerate_given (a : GenerateArguments) : Command.ofGenerate a.given = .generate a := by
  obtain ⟨path, generators, outDir, modelVersion, stdout⟩ := a
  unfold GenerateArguments.given
  cases outDir <;> cases modelVersion <;> cases stdout <;>
    simp [Command.ofGenerate, Given.values, Given.value?, Given.has, List.filter_append,
      List.filter_map, Function.comp_def]

theorem has_verbose_given (a : GenerateArguments) : a.given.has "verbose" = false := by
  obtain ⟨path, generators, outDir, modelVersion, stdout⟩ := a
  unfold GenerateArguments.given
  cases outDir <;> cases modelVersion <;> cases stdout <;> simp [Given.has]

/-- What stands before the name of the command. -/
theorem scan_verbose (words : List String) (verbose : Bool) :
    scan topGrammar .none none ((if verbose then ["-v"] else []) ++ "generate" :: words) =
      .ok (⟨if verbose then [("verbose", "")] else [], []⟩, "generate" :: words) := by
  cases verbose with
  | false => simp [scan, Word.of, topGrammar, commandNames, Given.none]
  | true =>
    simp [scan, Word.of, scanLetters, Grammar.letter?, Switch.takesValue, Given.raise, Given.note,
      Given.has, topGrammar, commonSwitches, commandNames, Given.none]

/-- **Every request for a run can be asked for.** -/
theorem ofWords_request (verbose : Bool) (a : GenerateArguments) :
    Request.ofWords ((if verbose then ["-v"] else []) ++ a.words) =
      .ok ⟨verbose, .generate a⟩ := by
  have hwords : a.words = "generate" :: a.words.tail := rfl
  unfold Request.ofWords
  rw [hwords, scan_verbose]
  simp only [Request.ofCommand, scanCommand_words, Except.map, ofGenerate_given,
    has_verbose_given]
  cases verbose <;> simp [Given.has]

theorem ofWords_words (a : GenerateArguments) :
    Request.ofWords a.words = .ok ⟨false, .generate a⟩ := ofWords_request false a

/-- A command line for a run is answered by the run. -/
theorem run_of_request {words : List String} {verbose : Bool} {a : GenerateArguments}
    (h : Request.ofWords words = .ok ⟨verbose, .generate a⟩) (cwd : Path) (t : FileTree) :
    (run words cwd : StateM FileTree _).run t =
      (⟨.of ((generate a cwd : StateM FileTree _).run t).1, LogLevel.of verbose⟩,
        ((generate a cwd : StateM FileTree _).run t).2) := by
  have hrun : (run words cwd : StateM FileTree Logged) =
      generate a cwd >>= fun ending =>
        pure ⟨.of ending, LogLevel.of verbose⟩ := by
    unfold run
    rw [h]
    rfl
  rw [hrun, run_bind]
  rfl

/-! ### What a run depends on -/

/-- The same was decided for both runs. -/
structure Job.Agrees (j k : Job) : Prop where
  registry : j.registry = k.registry
  generators : j.generators = k.generators
  modelDir : j.modelDir = k.modelDir
  outDir : j.outDir = k.outDir
  stdout : j.stdout = k.stdout
  placement : ∀ d, j.placement d = k.placement d
  version : ∀ d, j.version d = k.version d

section Agrees

variable {j k : Job}

theorem deliver_congr (h : j.Agrees k) (files : GeneratedFiles) :
    (j.deliver files : StateM FileTree _) = k.deliver files := by
  unfold Job.deliver
  rw [h.stdout, h.outDir]

theorem runGenerators_congr (h : j.Agrees k) (d : Document) (names : List String) :
    (j.runGenerators d names : StateM FileTree _) = k.runGenerators d names := by
  induction names with
  | nil => rfl
  | cons name names ih =>
    unfold Job.runGenerators
    simp only [h.registry, h.placement, h.version, deliver_congr h, ih]

theorem processFile_congr (h : j.Agrees k) (file : Path) :
    (processFile j file : StateM FileTree _) = processFile k file := by
  unfold processFile
  simp only [h.generators, runGenerators_congr h]

/-- **What becomes of the model files depends only on what was decided.** -/
theorem outcomes_congr (h : j.Agrees k) (files : List Names) :
    outcomes j files = outcomes k files := by
  induction files with
  | nil => rfl
  | cons names files ih =>
    unfold outcomes
    simp only [h.modelDir, processFile_congr h, ih]

end Agrees

/-! ### The two runs -/

/-- The same is decided from the arguments `a` with the settings `s` and from the arguments
`b` with the settings `s'`. -/
structure SameDecisions (cwd : Path) (a : GenerateArguments) (s : Settings)
    (b : GenerateArguments) (s' : Settings) : Prop where
  models : modelDirectory a cwd s = modelDirectory b cwd s'
  output : outputDirectory a cwd s = outputDirectory b cwd s'
  selected : selection a s = selection b s'
  stdout : a.stdout = b.stdout
  namespaceName : s.namespaceName = s'.namespaceName
  version : a.modelVersion.or s.version = b.modelVersion.or s'.version

variable {cwd : Path} {t u : FileTree} {a b : GenerateArguments} {s s' : Settings}

theorem SameDecisions.agrees (h : SameDecisions cwd a s b s') (r : Registry) :
    (jobOf a cwd s r).Agrees (jobOf b cwd s' r) where
  registry := rfl
  generators := h.selected
  modelDir := h.models
  outDir := h.output
  stdout := h.stdout
  placement := by
    intro d
    rw [placement_jobOf, placement_jobOf, h.namespaceName]
  version := by
    intro d
    show (a.modelVersion.or s.version).getD d.version =
      (b.modelVersion.or s'.version).getD d.version
    rw [h.version]

/-- Command lines for runs that come to the same end and leave trees that are alike. -/
theorem run_of_alike {words words' : List String} {verbose : Bool} {place : Names}
    (hwords : Request.ofWords words = .ok ⟨verbose, .generate a⟩)
    (hwords' : Request.ofWords words' = .ok ⟨verbose, .generate b⟩)
    (hending : ((generate b cwd : StateM FileTree _).run u).1 =
      ((generate a cwd : StateM FileTree _).run t).1)
    (hleft : Alike place ((generate a cwd : StateM FileTree _).run t).2
      ((generate b cwd : StateM FileTree _).run u).2) :
    ((run words' cwd : StateM FileTree Logged).run u).1 =
        ((run words cwd : StateM FileTree Logged).run t).1 ∧
      ∀ q, q ≠ place → ((run words' cwd : StateM FileTree Logged).run u).2.get? q =
        ((run words cwd : StateM FileTree Logged).run t).2.get? q := by
  rw [run_of_request hwords, run_of_request hwords']
  dsimp only
  exact ⟨by rw [hending], fun q hq => hleft.get?_eq_of_ne hq⟩

/-- A run that is refused before it starts. -/
theorem generate_of_refused {refusal : Refusal}
    (h : (prepare a cwd : StateM FileTree _).run t = (.error refusal, t)) :
    (generate a cwd : StateM FileTree _).run t = (⟨[], some refusal⟩, t) := by
  unfold generate
  rw [run_bind, h]
  rfl

/-- No file found below a directory stands at a place elsewhere. -/
theorem place_ne_of_found (hp : t.Proper) {dir : Path} {place : Names} (h : ¬ dir.place <+: place)
    {names : Names} (hn : names ∈ foundFiles t dir) : (dir.below names).place ≠ place := by
  have hnames := Disk.FileTree.isName_of_mem_filesBelow hp (List.mem_filter.mp hn).1
  rw [Disk.place_below hnames]
  rintro rfl
  exact h (List.prefix_append _ _)

/-- **Jobs for which the same was decided come to the same outcomes**, also if a file that is
no model file holds something else in the tree of the second. -/
theorem outcomes_of_alike {j k : Job} (h : j.Agrees k) (ht : t.Unlinked) (hp : t.Proper)
    (hu : u.Proper) {place : Names} (halike : Alike place t u)
    (hapart : ¬ j.modelDir.place <+: place) :
    ((outcomes k (foundFiles u k.modelDir)).run u).1 =
        ((outcomes j (foundFiles t j.modelDir)).run t).1 ∧
      Alike place ((outcomes j (foundFiles t j.modelDir)).run t).2
        ((outcomes k (foundFiles u k.modelDir)).run u).2 := by
  have hfound : foundFiles u k.modelDir = foundFiles t j.modelDir := by
    rw [← h.modelDir]
    unfold foundFiles
    rw [halike.filesBelow_eq hp hu]
  have hover : Disk.FileTree.Overlooks place (outcomes j (foundFiles t j.modelDir)) :=
    overlooks_outcomes fun n hn => place_ne_of_found hp hapart hn
  obtain ⟨hanswer, -, hleft⟩ := hover t u ht halike
  rw [hfound, ← outcomes_congr h]
  exact ⟨hanswer, hleft⟩

/-- **Runs for which the same is decided come to the same end**, also if a file that is no
model file holds something else in the tree of the second; and the trees are alike again. -/
theorem generate_of_sameDecisions (h : SameDecisions cwd a s b s') (ht : t.Unlinked)
    (hp : t.Proper) (hu : u.Proper) {place : Names} (halike : Alike place t u)
    (hs : ((Settings.load (cwd.join ⟨a.path⟩) : StateM FileTree _).run t).1 = .ok s)
    (hs' : ((Settings.load (cwd.join ⟨b.path⟩) : StateM FileTree _).run u).1 = .ok s')
    (hapart : ¬ (modelDirectory a cwd s).place <+: place) :
    ((generate b cwd : StateM FileTree _).run u).1 =
        ((generate a cwd : StateM FileTree _).run t).1 ∧
      Alike place ((generate a cwd : StateM FileTree _).run t).2
        ((generate b cwd : StateM FileTree _).run u).2 := by
  obtain ⟨r, hr⟩ : ∃ r, builtin = .ok r := ⟨_, rfl⟩
  have hfirst := prepare_of_loaded hs hr
  have hsecond := prepare_of_loaded hs' hr
  rw [← h.models, ← h.selected, halike.holds_eq] at hsecond
  by_cases hmodels : t.holds (modelDirectory a cwd s) = true
  · rw [if_pos hmodels] at hfirst hsecond
    cases hselected : selected r (selection a s) with
    | error refusal =>
      simp only [hselected] at hfirst hsecond
      rw [generate_of_refused hfirst, generate_of_refused hsecond]
      exact ⟨rfl, halike⟩
    | ok names =>
      simp only [hselected] at hfirst hsecond
      have hagrees : Job.Agrees { jobOf a cwd s r with generators := names }
          { jobOf b cwd s' r with generators := names } :=
        { h.agrees r with generators := rfl }
      obtain ⟨hanswer, hleft⟩ := outcomes_of_alike hagrees ht hp hu halike hapart
      rw [generate_run hfirst, generate_run hsecond, job_run_eq, job_run_eq]
      exact ⟨congrArg (fun os => Ending.mk (runReport os) none) hanswer, hleft⟩
  · rw [if_neg hmodels] at hfirst hsecond
    rw [generate_of_refused hfirst, generate_of_refused hsecond]
    exact ⟨rfl, halike⟩

/-- A file that is replaced holds the new text, and the trees are alike but for that. -/
theorem alike_of_replaced (ht : t.Unlinked) (hp : t.Proper) {p : Path} {source : String}
    (htext : t.readText p = .ok source) (source' : String) :
    Alike p.place t (t.put p.place (.item (.file (.text source')))) ∧
    (t.put p.place (.item (.file (.text source')))).Proper ∧
    (t.put p.place (.item (.file (.text source')))).readText p = .ok source' := by
  obtain ⟨place, hplace, hfile⟩ := Disk.FileTree.readText_eq_ok_iff.mp htext
  obtain rfl := Disk.FileTree.place_of_resolve ht hplace
  have hne : p.place ≠ [] := by
    intro h
    rw [h] at hfile
    cases hfile
  have halike : Alike p.place t (t.put p.place (.item (.file (.text source')))) :=
    .of_put hfile _
  exact ⟨halike, hp.put_file hfile _, Disk.FileTree.readText_eq_ok_iff.mpr
    ⟨p.place, (halike.resolve_eq p).trans hplace, Disk.FileTree.get?_put_self hne _⟩⟩

/-- **What is asked for with flags can as well be asked for in the settings.** The tree has
no links, its settings file holds settings that are understood, and is neither the model
directory nor below it. A run that asks for an output directory, for some generators and for
a version ends with the same report and the same code as a run without these flags, with a
log of the same level, where the settings file holds settings that ask for the same; and both
leave the same files and directories everywhere but at the place of the settings file. -/
theorem run_flags_eq_run_settings {words words' : List String}
    {path source source' outDir version : String} {generators : List String}
    {stdout verbose : Bool}
    (hwords : Request.ofWords words =
      .ok ⟨verbose, .generate ⟨path, generators, some outDir, some version, stdout⟩⟩)
    (hwords' : Request.ofWords words' =
      .ok ⟨verbose, .generate ⟨path, [], none, none, stdout⟩⟩)
    (hsome : generators ≠ []) (ht : t.Unlinked) (hp : t.Proper)
    (htext : t.readText (Settings.file (cwd.join ⟨path⟩)) = .ok source)
    (hs : Settings.shape.ofText source = .ok s)
    (hs' : Settings.shape.ofText source' =
      .ok { s with outDir := outDir, generators := generators, version := some version })
    (hapart : ¬ (s.modelPath (cwd.join ⟨path⟩)).place <+:
      (Settings.file (cwd.join ⟨path⟩)).place) :
    let place := (Settings.file (cwd.join ⟨path⟩)).place
    let flags := (run words cwd : StateM FileTree Logged).run t
    let plain := (run words' cwd : StateM FileTree Logged).run
      (t.put place (.item (.file (.text source'))))
    plain.1 = flags.1 ∧ ∀ q, q ≠ place → plain.2.get? q = flags.2.get? q := by
  intro place flags plain
  obtain ⟨halike, hu, htext'⟩ := alike_of_replaced ht hp htext source'
  have hdecisions : SameDecisions cwd ⟨path, generators, some outDir, some version, stdout⟩ s
      ⟨path, [], none, none, stdout⟩
      { s with outDir := outDir, generators := generators, version := some version } :=
    { models := rfl
      output := rfl
      selected := if_neg (by simpa using hsome)
      stdout := rfl
      namespaceName := rfl
      version := rfl }
  obtain ⟨hending, hleft⟩ := generate_of_sameDecisions hdecisions ht hp hu halike
    (load_settings_of_text htext hs) (load_settings_of_text htext' hs') hapart
  exact run_of_alike hwords hwords' hending hleft

/-- The stubs of this project, asked for once and elsewhere. -/
theorem run_flags_eq_run_settings_twin :
    let flags : GenerateArguments := ⟨"w", ["Sample"], some "out", some "8", false⟩
    let settings : Settings := ⟨"model", "out", ["Sample"], some "8", none⟩
    let replaced := twinTree.put ["w", settingsName] (.item (.file (.text settings.text)))
    ((run twinArguments.words ⟨"/"⟩ : StateM FileTree Logged).run replaced).1 =
        ((run flags.words ⟨"/"⟩ : StateM FileTree Logged).run twinTree).1 ∧
      ((run twinArguments.words ⟨"/"⟩ : StateM FileTree Logged).run replaced).2.get? ["w", "out"] =
        ((run flags.words ⟨"/"⟩ : StateM FileTree Logged).run twinTree).2.get? ["w", "out"] := by
  intro flags settings replaced
  have htext : twinTree.readText (Settings.file ((Disk.Path.mk "/").join ⟨"w"⟩)) =
      .ok (Settings.shape.compact twinSettings) := Disk.FileTree.readText_eq_ok_iff.mpr
    ⟨["w", settingsName], Disk.FileTree.resolve_of_descends rfl rfl, rfl⟩
  have hs : Settings.shape.ofText (Settings.shape.compact twinSettings) = .ok twinSettings :=
    Json.Shape.ofText_compact lawful_settings height_settings twinSettings
  have hs' : Settings.shape.ofText settings.text =
      .ok { twinSettings with outDir := "out", generators := ["Sample"], version := some "8" } :=
    ofText_settings_text settings
  obtain ⟨hsame, htrees⟩ := run_flags_eq_run_settings (ofWords_words flags)
    (ofWords_words twinArguments) (by decide) twinTree_unlinked twinTree_proper htext hs hs'
    (by decide)
  exact ⟨hsame, htrees ["w", "out"] (by decide)⟩

/-! ### Settings that are a model file -/

/-- Settings whose model directory is their own file. -/
def selfSettings (outDir : String) (version : Option String) : Settings :=
  ⟨settingsName, outDir, ["Sample"], version, none⟩

/-- A value for these settings that says of the version that there is none. -/
def selfValue (outDir : String) (version : Option String) : Json.Value :=
  .object [("modelDir", .text settingsName), ("outDir", .text outDir),
    ("generators", .list [.text "Sample"]),
    ("version", (version.map Json.Value.text).getD .null)]

def selfText (outDir : String) (version : Option String) : String :=
  .ofList (selfValue outDir version).compact

/-- A project with such settings. -/
def selfTree (outDir : String) (version : Option String) : FileTree := ⟨[
  (["w"], .item .directory),
  (["w", settingsName], .item (.file (.text (selfText outDir version))))]⟩

theorem fits_selfValue (outDir : String) (version : Option String) :
    (selfValue outDir version).Fits Json.nesting := by
  have hversion : ((version.map Json.Value.text).getD .null).Fits (Json.nesting - 1) := by
    cases version with
    | none => exact .scalar trivial
    | some v => exact .scalar trivial
  refine .object ?_
  simp only [List.forall_mem_cons]
  refine ⟨.scalar trivial, .scalar trivial, .list ?_, hversion, by simp⟩
  simp only [List.forall_mem_singleton]
  exact .scalar trivial

theorem ofText_selfText (outDir : String) (version : Option String) :
    Settings.shape.ofText (selfText outDir version) = .ok (selfSettings outDir version) := by
  have hfits := fits_selfValue outDir version
  refine (Json.Shape.ofText_iff_decode lawful_settings hfits hfits.text_compact).mpr ?_
  cases version with
  | none => rfl
  | some v => rfl

/-- With a version the settings are a document without elements. -/
theorem ofText_selfText_some (outDir version : String) :
    Document.ofText (selfText outDir (some version)) = .ok ⟨"", version, []⟩ := by
  have hfits := fits_selfValue outDir (some version)
  exact (Json.Shape.ofText_iff_decode Model.lawful_document hfits hfits.text_compact).mpr rfl

/-- Without a version they are none. -/
theorem ofText_selfText_none (outDir : String) :
    ∃ f, Document.ofText (selfText outDir none) = .error f := by
  have hfits := fits_selfValue outDir none
  cases hread : Document.ofText (selfText outDir none) with
  | error f => exact ⟨f, rfl⟩
  | ok d =>
    have hdecode := (Json.Shape.ofText_iff_decode Model.lawful_document hfits
      hfits.text_compact).mp hread
    cases hdecode

theorem selfTree_resolve (out : String) (version : Option String) :
    (selfTree out version).resolve ⟨"/w/modelgen.config.json"⟩ = .ok ["w", settingsName] :=
  Disk.FileTree.resolve_of_descends rfl rfl

theorem selfFile : Settings.file ((Disk.Path.mk "/").join ⟨"w"⟩) = ⟨"/w/modelgen.config.json"⟩ := by
  decide

section Self

variable {a : GenerateArguments} {out : String} {version : Option String}

theorem selfTree_models (hpath : a.path = "w") :
    modelDirectory a ⟨"/"⟩ (selfSettings out version) = ⟨"/w/modelgen.config.json"⟩ := by
  rw [modelDirectory, hpath]
  exact selfFile

theorem selfTree_ready (hpath : a.path = "w")
    (hselection : selection a (selfSettings out version) = ["Sample"]) :
    Ready a ⟨"/"⟩ (selfTree out version) (selfSettings out version) where
  settings := by
    refine load_settings_of_text ?_ (ofText_selfText out version)
    rw [hpath, selfFile]
    exact Disk.FileTree.readText_eq_ok_iff.mpr ⟨_, selfTree_resolve out version, rfl⟩
  models := by
    rw [selfTree_models hpath]
    exact Disk.FileTree.holds_iff.mpr ⟨_, _, selfTree_resolve out version, rfl⟩
  some_selected := by simp [hselection]
  registered := ⟨⟨[Stub.generator], by decide⟩, rfl, by rw [hselection]; decide⟩

/-- The settings file is the one model file. -/
theorem selfTree_found (out : String) (version : Option String) :
    foundFiles (selfTree out version) ⟨"/w/modelgen.config.json"⟩ = [[]] := by
  have hbelow : (selfTree out version).filesBelow ⟨"/w/modelgen.config.json"⟩ = [[]] := by
    rw [Disk.FileTree.filesBelow, selfTree_resolve]
    rfl
  rw [foundFiles, hbelow]
  rfl

/-- A run over such a project reports what becomes of its settings. -/
theorem selfTree_run (hpath : a.path = "w")
    (hselection : selection a (selfSettings out version) = ["Sample"]) :
    ∃ r, builtin = .ok r ∧ ∀ shown result u,
      (processFile (jobOf a ⟨"/"⟩ (selfSettings out version) r) ⟨"/w/modelgen.config.json"⟩ :
        StateM FileTree _).run (selfTree out version) = ((shown, result), u) →
      ((generate a ⟨"/"⟩ : StateM FileTree _).run (selfTree out version)).1 =
        ⟨runReport [⟨[], shown, result⟩], none⟩ := by
  obtain ⟨r, hr, -, hrun⟩ := generate_eq_outcomes (selfTree_ready hpath hselection)
  refine ⟨r, hr, fun shown result u hfile => ?_⟩
  have hbelow : (jobOf a ⟨"/"⟩ (selfSettings out version) r).modelDir.below [] =
      ⟨"/w/modelgen.config.json"⟩ := selfTree_models hpath
  rw [← hbelow] at hfile
  rw [hrun, selfTree_models hpath, selfTree_found, outcomes_cons hfile]
  rfl

/-- A document without elements makes no files, and no request to the disk. -/
theorem processFile_of_empty {job : Job} {t : FileTree} {file : Path} {label : String}
    (hr : builtin = .ok job.registry) (hgenerators : job.generators = ["Sample"])
    (hd : Loads t file ⟨"", label, []⟩) :
    (processFile job file : StateM FileTree _).run t = (([], .ok 0), t) := by
  have hname : "Sample" ∈ job.registry.names := by
    rw [Registry.names, builtin_generators hr]
    decide
  have hstubs := run_of_registered hr hname (job.placement ⟨"", label, []⟩) []
    (job.version ⟨"", label, []⟩)
  have hrun : (job.runGenerators ⟨"", label, []⟩ ["Sample"] : StateM FileTree _).run t =
      (([], .ok 0), t) := by
    unfold Job.runGenerators
    simp only [hstubs]
    unfold Job.deliver
    split <;> rfl
  rw [processFile_run hd, hgenerators, hrun]

/-- **Settings that are a model file make a difference.** The settings file of this project
is its own model directory, so it is not below it. Asked with flags, the run cannot read it
as a document; with the version in the settings it is one, and has no elements. -/
theorem run_flags_ne_run_settings :
    let flags : GenerateArguments := ⟨"w", ["Sample"], some "gen", some "2", false⟩
    let replaced := (selfTree "x" none).put ["w", settingsName]
      (.item (.file (.text (selfText "gen" (some "2")))))
    (selfTree "x" none).Unlinked ∧ (selfTree "x" none).Proper ∧
      (selfTree "x" none).readText ⟨"/w/modelgen.config.json"⟩ = .ok (selfText "x" none) ∧
      Settings.shape.ofText (selfText "x" none) = .ok (selfSettings "x" none) ∧
      Settings.shape.ofText (selfText "gen" (some "2")) =
        .ok { selfSettings "x" none with
          outDir := "gen", generators := ["Sample"], version := some "2" } ∧
      ¬ Output.Below (modelDirectory flags ⟨"/"⟩ (selfSettings "x" none)).place
        ["w", settingsName] ∧
      ((run twinArguments.words ⟨"/"⟩ : StateM FileTree Logged).run replaced).1 ≠
        ((run flags.words ⟨"/"⟩ : StateM FileTree Logged).run (selfTree "x" none)).1 := by
  intro flags replaced
  have hread : (selfTree "x" none).readText ⟨"/w/modelgen.config.json"⟩ =
      .ok (selfText "x" none) :=
    Disk.FileTree.readText_eq_ok_iff.mpr ⟨_, selfTree_resolve "x" none, rfl⟩
  have hread' : (selfTree "gen" (some "2")).readText ⟨"/w/modelgen.config.json"⟩ =
      .ok (selfText "gen" (some "2")) :=
    Disk.FileTree.readText_eq_ok_iff.mpr ⟨_, selfTree_resolve "gen" (some "2"), rfl⟩
  refine ⟨Disk.FileTree.unlinked_of_entries (by simp [selfTree]), ⟨by decide, by decide⟩, hread,
    ofText_selfText "x" none, ofText_selfText "gen" (some "2"), ?_, ?_⟩
  · rw [selfTree_models rfl]
    exact fun h => h.2 (by decide)
  · obtain ⟨f, hf⟩ := ofText_selfText_none "x"
    have hselection : selection flags (selfSettings "x" none) = ["Sample"] := rfl
    have hselection' : selection twinArguments (selfSettings "gen" (some "2")) = ["Sample"] := rfl
    obtain ⟨r, hr, hflags⟩ := selfTree_run rfl hselection
    obtain ⟨r', hr', hplain⟩ := selfTree_run rfl hselection'
    have hfails := hflags [] (.error (.model (.invalid f))) (selfTree "x" none) (by
      unfold processFile
      rw [run_bind, load_run, hread]
      simp only [hf]
      rfl)
    have hsucceeds := hplain [] (.ok 0) (selfTree "gen" (some "2"))
      (processFile_of_empty hr' rfl
        (loads_iff.mpr ⟨_, hread', ofText_selfText_some "gen" "2"⟩))
    have hreplaced : replaced = selfTree "gen" (some "2") := rfl
    rw [run_of_request (ofWords_words flags), run_of_request (ofWords_words twinArguments),
      hreplaced, hfails, hsucceeds]
    -- the lines on the model file go to different outputs
    intro h
    have hlines := congrArg (fun o : Logged => o.report[2]?) h
    cases hlines

end Self

end Project
end ModelStubs
