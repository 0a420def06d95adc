/-
# What becomes of each model file

A run that gets past the checks comes to one outcome for each model file, in the order
of the walk, and its report is made of these and nothing else (`Project.runReport`). The
counts at the end are the numbers of the outcomes of either kind, so together they are
the number of model files found (`Project.tallyOf_total`).

All that a run asks for on the way are the texts of the model files, and that generated
files are written (`Project.compositional_outcomes`). So what it does to the tree is
confined to the output directory (`Project.confines_outcomes`), and a file apart from that
directory changes neither the outcomes nor anything else that the run does, as long as no
model file is looked for at its place (`Project.blind_outcomes`).

Key definitions: `Project.FileOutcome`, `Project.outcomes`, `Project.tallyOf`,
`Project.runReport`.
Key theorems: `Project.job_run_eq`, `Project.generate_cases`, `Project.generate_of_accepted`,
`Project.compositional_outcomes`, `Project.confines_outcomes`, `Project.blind_outcomes`.
-/
import ModelStubs.Proofs.Bystanders
import ModelStubs.Proofs.Checks

namespace ModelStubs
namespace Project

open Disk (Path Names FileTree)
open Disk.FileTree (Blind)
open Model (Document)
open Output (Apart Confines)

/-- What became of a model file: the lines that were shown for it, and its result. -/
structure FileOutcome where
  names : Names
  shown : Report
  result : Except FileFailure Nat

namespace FileOutcome

/-- The lines on a model file. -/
def lines (o : FileOutcome) : Report := o.shown ++ [resultLine ("/".intercalate o.names) o.result]

/-- The file was processed. -/
def isSuccess (o : FileOutcome) : Bool :=
  match o.result with
  | .ok _ => true
  | .error _ => false

end FileOutcome

/-- How many of the outcomes are of either kind. -/
def tallyOf (os : List FileOutcome) : Tally :=
  ⟨os.countP FileOutcome.isSuccess, os.countP fun o => !o.isSuccess⟩

/-- The report on a run with the given outcomes. -/
def runReport (os : List FileOutcome) : Report :=
  .out [heading "🔨 Generating from model files..."] ::
    if os.isEmpty then [.out [yellow "⚠️  No model files found"]]
    else
      .plain ("Found " ++ toString os.length ++ " files") :: os.flatMap FileOutcome.lines ++
        summary (tallyOf os)

/-- Goes through model files, and keeps what becomes of them. -/
def outcomes (job : Job) : List Names → StateM FileTree (List FileOutcome)
  | [] => pure []
  | names :: files => do
    let (shown, result) ← processFile job (job.modelDir.below names)
    let rest ← outcomes job files
    return ⟨names, shown, result⟩ :: rest

theorem tallyOf_cons (o : FileOutcome) (os : List FileOutcome) :
    tallyOf (o :: os) =
      ⟨(tallyOf os).processed + (if o.isSuccess then 1 else 0),
        (tallyOf os).failed + (if o.isSuccess then 0 else 1)⟩ := by
  unfold tallyOf
  cases h : o.isSuccess with
  | true => simp [h]
  | false => simp [h]

/-- Every outcome is of one kind. -/
theorem tallyOf_total (os : List FileOutcome) :
    (tallyOf os).processed + (tallyOf os).failed = os.length := by
  induction os with
  | nil => rfl
  | cons o os ih =>
    rw [tallyOf_cons, List.length_cons]
    cases o.isSuccess with
    | true => simp; omega
    | false => simp; omega

theorem outcomes_cons {job : Job} {names : Names} {files : List Names} {t u : FileTree}
    {shown : Report} {result : Except FileFailure Nat}
    (h : (processFile job (job.modelDir.below names) : StateM FileTree _).run t =
      ((shown, result), u)) :
    (outcomes job (names :: files)).run t =
      (⟨names, shown, result⟩ :: ((outcomes job files).run u).1,
        ((outcomes job files).run u).2) := by
  rw [outcomes, run_bind, h]
  rfl

/-- The files behind others are gone through in the tree that those leave. -/
theorem outcomes_append {job : Job} {files more : List Names} : ∀ t : FileTree,
    (outcomes job (files ++ more)).run t =
      (((outcomes job files).run t).1 ++
          ((outcomes job more).run ((outcomes job files).run t).2).1,
        ((outcomes job more).run ((outcomes job files).run t).2).2) := by
  induction files with
  | nil => exact fun t => rfl
  | cons names files ih =>
    intro t
    rcases h : (processFile job (job.modelDir.below names) : StateM FileTree _).run t with
      ⟨⟨shown, result⟩, u⟩
    rw [List.cons_append, outcomes_cons h, outcomes_cons h, ih u]
    rfl

/-- There is one outcome for each file. -/
theorem outcomes_names {job : Job} {files : List Names} : ∀ t : FileTree,
    ((outcomes job files).run t).1.map FileOutcome.names = files := by
  induction files with
  | nil => exact fun t => rfl
  | cons names files ih =>
    intro t
    rcases h : (processFile job (job.modelDir.below names) : StateM FileTree _).run t with
      ⟨⟨shown, result⟩, u⟩
    rw [outcomes_cons h, List.map_cons, ih u]

/-- The report on the files and the tally are those of the outcomes. -/
theorem processFiles_eq_outcomes {job : Job} {files : List Names} :
    ∀ (t : FileTree) (tally : Tally),
    (processFiles job tally files : StateM FileTree _).run t =
      ((((outcomes job files).run t).1.flatMap FileOutcome.lines,
        ⟨tally.processed + (tallyOf ((outcomes job files).run t).1).processed,
          tally.failed + (tallyOf ((outcomes job files).run t).1).failed⟩),
        ((outcomes job files).run t).2) := by
  induction files with
  | nil => exact fun t tally => rfl
  | cons names files ih =>
    intro t tally
    rcases h : (processFile job (job.modelDir.below names) : StateM FileTree _).run t with
      ⟨⟨shown, result⟩, u⟩
    rw [processFiles_cons h, outcomes_cons h, ih u]
    simp only [tallyOf_cons, List.flatMap_cons, FileOutcome.lines]
    cases result with
    | ok count =>
      have hcount : (tally.add (.ok count)).processed = tally.processed + 1 := rfl
      have hkept : (tally.add (.ok count)).failed = tally.failed := rfl
      have hsuccess : (⟨names, shown, .ok count⟩ : FileOutcome).isSuccess = true := rfl
      rw [hcount, hkept, hsuccess]
      simp only [if_true, Nat.add_zero, List.append_assoc, List.singleton_append]
      congr 3
      omega
    | error f =>
      have hcount : (tally.add (.error f)).failed = tally.failed + 1 := rfl
      have hkept : (tally.add (.error f)).processed = tally.processed := rfl
      have hfailure : (⟨names, shown, .error f⟩ : FileOutcome).isSuccess = false := rfl
      rw [hcount, hkept, hfailure]
      simp only [Bool.false_eq_true, if_false, Nat.add_zero, List.append_assoc,
        List.singleton_append]
      congr 3
      omega

/-- The model files that a walk finds. -/
def foundFiles (t : FileTree) (dir : Path) : List Names :=
  (t.filesBelow dir).filter (isModelFile dir)

/-- A run reports the outcomes of the model files that it finds. -/
theorem job_run_eq (job : Job) (t : FileTree) :
    (job.run : StateM FileTree _).run t =
      (runReport ((outcomes job (foundFiles t job.modelDir)).run t).1,
        ((outcomes job (foundFiles t job.modelDir)).run t).2) := by
  have hfound : ((modelFiles job.modelDir : StateM FileTree _).run t).1 =
      foundFiles t job.modelDir := rfl
  cases hfiles : foundFiles t job.modelDir with
  | nil =>
    rw [hfiles] at hfound
    rw [job_run_nil hfound]
    rfl
  | cons names files =>
    rw [hfiles] at hfound
    have hlength : ((outcomes job (names :: files)).run t).1.length =
        (names :: files).length := by
      have hnames : ((outcomes job (names :: files)).run t).1.map FileOutcome.names =
          names :: files := outcomes_names t
      simpa using congrArg List.length hnames
    have hsome : ((outcomes job (names :: files)).run t).1.isEmpty = false := by
      cases hos : ((outcomes job (names :: files)).run t).1 with
      | nil =>
        rw [hos] at hlength
        cases hlength
      | cons o os => rfl
    rw [job_run_cons hfound (processFiles_eq_outcomes t ⟨0, 0⟩), runReport, hsome, hlength]
    simp

/-! ### Runs that get past the checks -/

/-- A run that is ready reports the outcomes of the model files and leaves the tree that
these leave. -/
theorem generate_eq_outcomes {a : GenerateArguments} {cwd : Path} {t : FileTree} {s : Settings}
    (h : Ready a cwd t s) : ∃ r, builtin = .ok r ∧ (∀ name ∈ selection a s, name ∈ r.names) ∧
      (generate a cwd : StateM FileTree _).run t =
        (⟨runReport ((outcomes (jobOf a cwd s r)
            (foundFiles t (modelDirectory a cwd s))).run t).1, none⟩,
          ((outcomes (jobOf a cwd s r) (foundFiles t (modelDirectory a cwd s))).run t).2) := by
  obtain ⟨r, hr, hreg, hprep⟩ := prepare_of_ready h
  refine ⟨r, hr, hreg, ?_⟩
  rw [generate_run hprep, job_run_eq]
  rfl

/-- A run is refused and leaves the tree as it is, or it was ready, reports the outcomes of
the model files and leaves the tree that these leave. -/
theorem generate_cases (a : GenerateArguments) (cwd : Path) (t : FileTree) :
    (∃ refusal, (generate a cwd : StateM FileTree _).run t = (⟨[], some refusal⟩, t)) ∨
    ∃ s r, Ready a cwd t s ∧ builtin = .ok r ∧ (∀ name ∈ selection a s, name ∈ r.names) ∧
      (generate a cwd : StateM FileTree _).run t =
        (⟨runReport ((outcomes (jobOf a cwd s r)
            (foundFiles t (modelDirectory a cwd s))).run t).1, none⟩,
          ((outcomes (jobOf a cwd s r) (foundFiles t (modelDirectory a cwd s))).run t).2) := by
  rcases givesUp_or_ready a cwd t with ⟨refusal, h⟩ | ⟨s, hready⟩
  · exact .inl ⟨refusal, generate_of_givesUp h⟩
  · obtain ⟨r, hr, hreg, hrun⟩ := generate_eq_outcomes hready
    exact .inr ⟨s, r, hready, hr, hreg, hrun⟩

/-- A run that refuses nothing was ready, and reports its outcomes. -/
theorem generate_of_accepted {a : GenerateArguments} {cwd : Path} {t u : FileTree}
    {ending : Ending} (h : (generate a cwd : StateM FileTree _).run t = (ending, u))
    (haccepted : ending.refusal = none) : ∃ s r, Ready a cwd t s ∧ builtin = .ok r ∧
      (∀ name ∈ selection a s, name ∈ r.names) ∧
      ending.report = runReport ((outcomes (jobOf a cwd s r)
        (foundFiles t (modelDirectory a cwd s))).run t).1 ∧
      u = ((outcomes (jobOf a cwd s r) (foundFiles t (modelDirectory a cwd s))).run t).2 := by
  rcases generate_cases a cwd t with ⟨refusal, hrun⟩ | ⟨s, r, hready, hr, hreg, hrun⟩
  · rw [hrun] at h
    cases h
    cases haccepted
  · rw [hrun] at h
    cases h
    exact ⟨s, r, hready, hr, hreg, rfl, rfl⟩

/-! ### The requests of a run -/

section Requests

variable {P : {α : Type} → StateM FileTree α → Prop} {job : Job}

theorem compositional_deliver (h : Disk.Compositional P) {files : GeneratedFiles}
    (hwrite : job.stdout = false →
      P (Output.writeFiles (m := StateM FileTree) (Output.diskSink job.outDir) files)) :
    P (job.deliver files : StateM FileTree _) := by
  unfold Job.deliver
  split
  · exact h.pure _
  · next hdisk =>
    refine h.bind (hwrite (by simpa using hdisk)) fun result => ?_
    split
    · exact h.pure _
    · exact h.pure _

theorem compositional_runGenerators (h : Disk.Compositional P) {d : Document}
    (hdeliver : ∀ name files,
      job.registry.run name (job.placement d) d.elements (job.version d) = .ok files →
      P (job.deliver files : StateM FileTree _)) : ∀ names : List String,
    P (job.runGenerators d names : StateM FileTree _)
  | [] => h.pure _
  | name :: names => by
    unfold Job.runGenerators
    split
    · exact h.pure _
    · next files hfiles =>
      refine h.bind (hdeliver name files hfiles) fun result => ?_
      split
      · exact h.pure _
      · refine h.bind (compositional_runGenerators h hdeliver names) fun result => ?_
        split
        · exact h.pure _
        · exact h.pure _

theorem compositional_load (h : Disk.Compositional P) {file : Path}
    (hread : P (Disk.Access.readText (m := StateM FileTree) file)) :
    P (Document.load file : StateM FileTree _) := by
  unfold Document.load
  refine h.bind hread fun result => ?_
  split
  · exact h.pure _
  · split
    · exact h.pure _
    · exact h.pure _

/-- What is asked for on the way through model files: their texts, and that generated files
are written. -/
theorem compositional_outcomes (h : Disk.Compositional P) : ∀ {files : List Names},
    (∀ names ∈ files, P (Disk.Access.readText (m := StateM FileTree) (job.modelDir.below names))) →
    (job.stdout = false → ∀ (d : Document) (name : String) (lot : GeneratedFiles),
      job.registry.run name (job.placement d) d.elements (job.version d) = .ok lot →
      P (Output.writeFiles (m := StateM FileTree) (Output.diskSink job.outDir) lot)) →
    P (outcomes job files)
  | [], _, _ => h.pure _
  | names :: files, hread, hwrite => by
    have hrest : P (outcomes job files) :=
      compositional_outcomes h (fun n hn => hread n (List.mem_cons_of_mem _ hn)) hwrite
    have hfile : P (processFile job (job.modelDir.below names) : StateM FileTree _) := by
      unfold processFile
      refine h.bind (compositional_load h (hread names List.mem_cons_self)) fun result => ?_
      split
      · exact h.pure _
      · next d =>
        refine h.bind (compositional_runGenerators h (fun name lot hlot =>
          compositional_deliver h fun hdisk => hwrite hdisk d name lot hlot) _) fun result => ?_
        split
        · exact h.pure _
        · exact h.pure _
    exact h.bind hfile fun _ => h.bind hrest fun _ => h.pure _

end Requests

/-- Going through model files is confined to the output directory. -/
theorem confines_outcomes (job : Job) (files : List Names) :
    Confines job.outDir (outcomes job files) :=
  compositional_outcomes Output.confines_compositional (fun _ _ t _ => .refl t)
    fun _ _ _ lot _ => Output.confines_writeFiles job.outDir lot

/-- A file apart from the output directory makes no difference to the model files that
are looked for elsewhere. -/
theorem blind_outcomes {job : Job} {place : Names} (h : Apart job.outDir place)
    {files : List Names} (hf : ∀ names ∈ files, (job.modelDir.below names).Avoids place) :
    Blind place (outcomes job files) :=
  compositional_outcomes Disk.FileTree.blind_compositional
    (fun names hn => Disk.FileTree.blind_readText (hf names hn))
    fun _ _ _ lot _ => Output.blind_writeFiles h lot

end Project
end ModelStubs
