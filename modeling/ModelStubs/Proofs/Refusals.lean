/-
# Failures of a run and failures of a file

A run fails as a whole only before it has gone to any model file, for one of the reasons of
`Project.GivesUp`; then nothing was shown and nothing has changed. From there on what fails
is a single file. Its document cannot be loaded, or a key of its stubs is no path below the
output directory, or the disk does not take a stub. That a generator is unknown cannot
happen any more: every name of the selection was looked up before, wherever it came from,
and a generator that was found is found again (`Project.runGenerators_failure`).

Key definitions: `Failure.OfWriting`, `Project.FileFailure.Expected`.
Key theorems: `Output.writeFiles_failure`, `Project.runGenerators_failure`,
`Project.outcomes_expected`, `Project.generate_refused_iff`.
-/
import ModelStubs.Project.Command
import ModelStubs.Proofs.Outcomes
import ModelStubs.Proofs.RunOutcome

namespace ModelStubs

/-- The failures that writing files may end in. -/
inductive Failure.OfWriting : Failure → Prop
  | path (key : String) : OfWriting (.invalidOutputPath key)
  | disk (e : Disk.Error) : OfWriting (.disk e)

namespace Output

/-- Files are not written because of a key or because of the disk. -/
theorem writeFiles_failure {σ : Type} {sink : Sink (StateM σ)} {files : GeneratedFiles} {x y : σ}
    {f : Failure} (h : (writeFiles sink files).run x = (.error f, y)) : f.OfWriting := by
  cases hr : resolved files.entries with
  | error g =>
    rw [writeFiles_of_error hr] at h
    cases h
    obtain ⟨-, key, -, -, -, -, rfl, -⟩ := resolved_eq_error hr
    exact .path key
  | ok calls =>
    rw [writeFiles_of_resolved hr] at h
    rcases sink.succeeds_or_fails calls x with ⟨ps, z, hs⟩ | ⟨before, c, after, ps, z, e, w, hc⟩
    · rw [writeAll_of_succeeds hs] at h
      cases h
    · obtain ⟨rfl, hs, hf⟩ := hc
      rw [writeAll_of_fails hs hf] at h
      cases h
      exact .disk e

end Output

namespace Project

open Disk (Path Names FileTree)
open Model (Document)

/-- The failures that a model file may end in. -/
inductive FileFailure.Expected : FileFailure → Prop
  | model (f : ModelFailure) : Expected (.model f)
  | output {f : Failure} (h : f.OfWriting) : Expected (.output f)

/-- No model file fails because a generator is unknown. -/
theorem FileFailure.Expected.ne_unknownGenerator {f : FileFailure} (h : f.Expected)
    (name : String) : f ≠ .output (.unknownGenerator name) := by
  rintro rfl
  cases h with
  | output h => cases h

/-! ### One model file -/

section File

variable {job : Job} {t u : FileTree} {shown : Report}

/-- Files are delivered unless they cannot be written; files that are only shown always are. -/
theorem deliver_failure {files : GeneratedFiles} {f : Failure}
    (h : (job.deliver files : StateM FileTree _).run t = ((shown, .error f), u)) :
    f.OfWriting := by
  unfold Job.deliver at h
  split at h
  · cases h
  · rw [run_bind] at h
    rcases hw : (Output.writeFiles (m := StateM FileTree) (Output.diskSink job.outDir)
      files).run t with ⟨g | paths, v⟩
    · rw [hw] at h
      cases h
      exact Output.writeFiles_failure hw
    · rw [hw] at h
      cases h

/-- Generators that are registered run, so only the delivery of what they make fails. -/
theorem runGenerators_failure {d : Document} {f : Failure} : ∀ {names : List String}
    {t u : FileTree} {shown : Report}, (∀ name ∈ names, name ∈ job.registry.names) →
    (job.runGenerators d names : StateM FileTree _).run t = ((shown, .error f), u) →
    f.OfWriting
  | [], t, u, shown, _, h => by cases h
  | name :: names, t, u, shown, hreg, h => by
    obtain ⟨files, hrun⟩ : ∃ files, job.registry.run name (job.placement d) d.elements
        (job.version d) = .ok files := Registry.run_of_mem (hreg name List.mem_cons_self)
    unfold Job.runGenerators at h
    simp only [hrun] at h
    rw [run_bind] at h
    rcases hd : (job.deliver files : StateM FileTree _).run t with ⟨⟨first, g | count⟩, v⟩
    · rw [hd] at h
      cases h
      exact deliver_failure hd
    · rw [hd] at h
      change StateT.run (job.runGenerators d names >>= _) v = _ at h
      rw [run_bind] at h
      rcases hg : (job.runGenerators d names : StateM FileTree _).run v with ⟨⟨more, g | rest⟩, w⟩
      · rw [hg] at h
        cases h
        exact runGenerators_failure (fun n hn => hreg n (List.mem_cons_of_mem _ hn)) hg
      · rw [hg] at h
        cases h

/-- A model file fails because of its document or because its stubs are not written. -/
theorem processFile_failure {file : Path} {f : FileFailure}
    (hreg : ∀ name ∈ job.generators, name ∈ job.registry.names)
    (h : (processFile job file : StateM FileTree _).run t = ((shown, .error f), u)) :
    f.Expected := by
  cases hl : ((Document.load file : StateM FileTree _).run t).1 with
  | error g =>
    unfold processFile at h
    rw [run_bind, hl] at h
    cases h
    exact .model g
  | ok d =>
    rw [processFile_run hl] at h
    rcases hg : (job.runGenerators d job.generators : StateM FileTree _).run t with
      ⟨⟨first, g | count⟩, v⟩
    · rw [hg] at h
      cases h
      exact .output (runGenerators_failure hreg hg)
    · rw [hg] at h
      cases h

/-- What becomes of model files, one after the other, is success or an expected failure. -/
theorem outcomes_expected (hreg : ∀ name ∈ job.generators, name ∈ job.registry.names) :
    ∀ {files : List Names} {t : FileTree}, ∀ o ∈ ((outcomes job files).run t).1,
    ∀ f, o.result = .error f → f.Expected
  | [], t, o, ho, f, h => by cases ho
  | names :: files, t, o, ho, f, h => by
    rcases hp : (processFile job (job.modelDir.below names) : StateM FileTree _).run t with
      ⟨⟨shown, result⟩, u⟩
    rw [outcomes_cons hp] at ho
    rcases List.mem_cons.mp ho with rfl | ho
    · simp only at h
      rw [h] at hp
      exact processFile_failure hreg hp
    · exact outcomes_expected hreg o ho f h

end File

/-! ### The run -/

variable {a : GenerateArguments} {cwd : Path} {t u : FileTree}

/-- Why a command gave up is told on the error output only. -/
theorem text_refusalLines (refusal : Refusal) (colours : Bool) :
    (refusalLines refusal).text colours .out = "" := rfl

/-- A run without a reason to give up goes through all model files. -/
theorem generate_of_not_givesUp (h : ∀ refusal, ¬ GivesUp a cwd t refusal) :
    ∃ s os u, Ready a cwd t s ∧
      (generate a cwd : StateM FileTree _).run t = (⟨runReport os, none⟩, u) ∧
      os.map FileOutcome.names = foundFiles t (modelDirectory a cwd s) ∧
      ∀ o ∈ os, ∀ f, o.result = .error f → f.Expected := by
  rcases givesUp_or_ready a cwd t with ⟨refusal, hgives⟩ | ⟨s, hready⟩
  · exact absurd hgives (h refusal)
  · obtain ⟨r, -, hreg, hrun⟩ := generate_eq_outcomes hready
    exact ⟨s, _, _, hready, hrun, outcomes_names t,
      outcomes_expected (show ∀ name ∈ (jobOf a cwd s r).generators, _ from hreg)⟩

/-- A run is refused for the reason to give up that there is. -/
theorem refusal_eq_some_iff {refusal : Refusal} :
    ((generate a cwd : StateM FileTree _).run t).1.refusal = some refusal ↔
      GivesUp a cwd t refusal := by
  constructor
  · intro h
    by_cases hgives : ∃ reason, GivesUp a cwd t reason
    · obtain ⟨reason, hreason⟩ := hgives
      rw [generate_of_givesUp hreason] at h
      exact Option.some.inj h ▸ hreason
    · obtain ⟨s, os, u, -, hrun, -⟩ := generate_of_not_givesUp (not_exists.mp hgives)
      rw [hrun] at h
      cases h
  · intro h
    rw [generate_of_givesUp h]

/-- **A run fails as a whole before it does anything, or not at all.** It is refused for
the reason that `GivesUp` tells, and for no other. If it is, then the tree is as it was, the
reason is told on the error output, nothing stands on the output, and the code is 1. If
there is no reason, then the code is 0, there is an outcome for every model file that a walk
finds, and a file that failed did so because of its document, of a key or of the disk, and
never because a generator is unknown. -/
theorem generate_refused_iff {ending : Ending}
    (hrun : (generate a cwd : StateM FileTree _).run t = (ending, u)) :
    (∀ refusal, ending.refusal = some refusal ↔ GivesUp a cwd t refusal) ∧
    (∀ refusal, GivesUp a cwd t refusal →
      u = t ∧ Outcome.of ending = ⟨refusalLines refusal, 1⟩ ∧
      ∀ colours, (Outcome.of ending).report.text colours .out = "") ∧
    ((∀ refusal, ¬ GivesUp a cwd t refusal) →
      ending.refusal = none ∧
      ∃ s os, Settings.Kept t (cwd.join ⟨a.path⟩) s ∧
        Outcome.of ending = ⟨runReport os, 0⟩ ∧
        os.map FileOutcome.names = foundFiles t (modelDirectory a cwd s) ∧
        ∀ o ∈ os, ∀ f, o.result = .error f →
          f.Expected ∧ ∀ name, f ≠ .output (.unknownGenerator name)) := by
  refine ⟨fun refusal => ?_, fun refusal h => ?_, fun hnone => ?_⟩
  · rw [← refusal_eq_some_iff, hrun]
  · rw [generate_of_givesUp h] at hrun
    cases hrun
    exact ⟨rfl, rfl, text_refusalLines refusal⟩
  · obtain ⟨s, os, v, hready, hrun', hnames, hexpected⟩ := generate_of_not_givesUp hnone
    rw [hrun'] at hrun
    cases hrun
    have hs := Settings.load_eq_ok_iff.mp hready.settings
    refine ⟨rfl, s, os, hs, rfl, hnames, fun o ho f hf => ?_⟩
    exact ⟨hexpected o ho f hf, (hexpected o ho f hf).ne_unknownGenerator⟩

/-- The project with two documents, asked for a generator that there is and for one that
there is not. -/
def cobolArguments : GenerateArguments := ⟨"w", ["Sample", "Cobol"], none, none, false⟩

/-- The second generator is the reason that nothing is done. -/
theorem generate_refused_cobol :
    GivesUp cobolArguments ⟨"/"⟩ twinTree (.unknownGenerator "Cobol" ["Sample"]) ∧
    ∃ ending, (generate cobolArguments ⟨"/"⟩ : StateM FileTree _).run twinTree =
        (ending, twinTree) ∧
      ending.refusal = some (.unknownGenerator "Cobol" ["Sample"]) ∧
      (Outcome.of ending).code = 1 := by
  have hs : Settings.Kept twinTree ((⟨"/"⟩ : Path).join ⟨"w"⟩) twinSettings :=
    Settings.load_eq_ok_iff.mp twinTree_ready.settings
  have hmodels : twinTree.holds (modelDirectory cobolArguments ⟨"/"⟩ twinSettings) = true :=
    twinTree_ready.models
  obtain ⟨r, hr, hnames⟩ : ∃ r, builtin = .ok r ∧ r.names = ["Sample"] := ⟨_, rfl, rfl⟩
  have hselection : selection cobolArguments twinSettings = ["Sample"] ++ "Cobol" :: [] := rfl
  have hgives : GivesUp cobolArguments ⟨"/"⟩ twinTree (.unknownGenerator "Cobol" ["Sample"]) :=
    hnames ▸ .unknown hs hmodels hr hselection (by simp [hnames]) (by simp [hnames])
  rcases hrun : (generate cobolArguments ⟨"/"⟩ : StateM FileTree _).run twinTree with ⟨ending, u⟩
  obtain ⟨hiff, hrefused, -⟩ := generate_refused_iff hrun
  obtain ⟨rfl, houtcome, -⟩ := hrefused _ hgives
  exact ⟨hgives, ending, rfl, (hiff _).mpr hgives, congrArg Outcome.code houtcome⟩

end Project
end ModelStubs
