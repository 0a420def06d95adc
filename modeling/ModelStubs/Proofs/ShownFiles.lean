/-
# What is shown is what would be written

A run that writes files and a run that only shows them differ in one place, where the files
of one generator are delivered. The first counts the paths that were written and reports
nothing of the files, the second counts the files and reports all of them. So if no file
fails, both report the same results, and the second shows before each result what the first
hands to its sink for it (`Project.generate_shows_what_it_writes`). What was handed to the
sink is read off a ledger.

The two runs read their documents at different times. That the documents are the same
although stubs were written in between, perhaps through links, is
`Project.NoNewDocuments.loads`.

Key definitions: `Project.Batch`, `Project.Job.Generates`, `Project.Batch.Of`,
`Project.ShownAsWritten`.
Key theorems: `Project.runGenerators_written`, `Project.outcomes_written`,
`Project.outcomes_shown`, `Project.generate_shows_what_it_writes`.
-/
import Mathlib.Algebra.GroupWithZero.Nat
import ModelStubs.Proofs.Ledgers
import ModelStubs.Proofs.LinkedWalks
import ModelStubs.Proofs.PathBytes
import ModelStubs.Proofs.SameDocuments
import ModelStubs.Proofs.SpoiledFile

namespace ModelStubs
namespace Project

open Disk (Path FileTree Names Ledger Silent)
open Model (Document)
open Output (Calls Puts diskSink ledgerEntry)

/-! ### What is made of a model file -/

/-- What the generators made of a model file, one lot for each time one was run. -/
structure Batch where
  names : Names
  lots : List GeneratedFiles

namespace Batch

/-- The files in their order: lot by lot, and in each by their keys. -/
def entries (b : Batch) : List (String × String) := b.lots.flatMap Listing.entries

/-- The number of files. -/
def count (b : Batch) : Nat := (b.lots.map Listing.size).sum

/-- What becomes of the model file if the files are written. -/
def written (b : Batch) : FileOutcome := ⟨b.names, [], .ok b.count⟩

/-- What becomes of the model file if the files are shown. -/
def shown (b : Batch) : FileOutcome := ⟨b.names, b.lots.flatMap shownFiles, .ok b.count⟩

end Batch

/-- The generators of the given names make these lots of a document. -/
def Job.Generates (job : Job) (d : Document) (names : List String) (lots : List GeneratedFiles) :
    Prop :=
  List.Forall₂ (fun name lot => job.registry.run name (job.placement d) d.elements
    (job.version d) = .ok lot) names lots

/-- The generators of the job make the lots of the document that the model file holds. -/
def Batch.Of (b : Batch) (job : Job) (t : FileTree) : Prop :=
  ∃ d, Loads t (job.modelDir.below b.names) d ∧ job.Generates d job.generators b.lots

/-! ### Requests that write nothing down -/

theorem silent_readText (p : Path) :
    Silent (Disk.Access.readText (m := StateM FileTree) p) (Disk.Access.readText p) :=
  fun t => Disk.notes_request _ t []

theorem silent_holds (p : Path) :
    Silent (Disk.Access.holds (m := StateM FileTree) p) (Disk.Access.holds p) :=
  fun t => Disk.notes_request _ t []

theorem silent_load (file : Path) :
    Silent (Document.load (m := StateM FileTree) file) (Document.load file) := by
  unfold Document.load
  refine (silent_readText file).bind fun result => ?_
  split
  · exact .pure _
  · split
    · exact .pure _
    · exact .pure _

theorem silent_modelFiles (dir : Path) :
    Silent (modelFiles (m := StateM FileTree) dir) (modelFiles dir) := by
  have hbelow : Silent (Disk.Access.filesBelow (m := StateM FileTree) dir)
      (Disk.Access.filesBelow dir) := fun t => Disk.notes_request _ t []
  exact hbelow.bind fun _ => .pure _

theorem silent_settings (project : Path) :
    Silent (Settings.load (m := StateM FileTree) project) (Settings.load project) := by
  unfold Settings.load
  refine (silent_holds _).bind fun there => ?_
  split
  · refine (silent_readText _).bind fun result => ?_
    split
    · exact .pure _
    · split
      · exact .pure _
      · exact .pure _
  · exact .pure _

theorem silent_prepare (a : GenerateArguments) (cwd : Path) :
    Silent (prepare (m := StateM FileTree) a cwd) (prepare a cwd) := by
  unfold prepare
  refine (silent_settings _).bind fun result => ?_
  split
  · exact .pure _
  · refine (silent_holds _).bind fun there => ?_
    split
    · exact .pure _
    · split
      · exact .pure _
      · split
        · exact .pure _
        · exact .pure _

/-! ### Writing -/

section Written

variable {job : Job} {t u v : FileTree} {shown : Report} {count : Nat}

theorem deliver_written (hdisk : job.stdout = false) {files : GeneratedFiles}
    (h : (job.deliver files : StateM FileTree _).run t = ((shown, .ok count), u)) :
    shown = [] ∧ count = files.size ∧ Puts job.outDir files.entries
      (job.deliver files : StateM FileTree _) (job.deliver files) t := by
  unfold Job.deliver at h ⊢
  rw [hdisk, if_neg (by decide)] at h
  rw [hdisk, if_neg (by decide), if_neg (by decide)]
  rw [run_bind] at h
  rcases hw : (Output.writeFiles (diskSink job.outDir) files : StateM FileTree _).run t with
    ⟨f | paths, w⟩
  · rw [hw] at h
    cases h
  · rw [hw] at h
    cases h
    obtain ⟨hlength, hputs⟩ := Output.puts_writeFiles hw
    refine ⟨rfl, hlength, hputs.bind_silent fun result => ?_⟩
    split
    · exact .pure _
    · exact .pure _

/-- The lots of all generators are written, one behind the other. -/
theorem runGenerators_written (hdisk : job.stdout = false) {d : Document} :
    ∀ {names : List String} {t u : FileTree} {shown : Report} {count : Nat},
    (job.runGenerators d names : StateM FileTree _).run t = ((shown, .ok count), u) →
    ∃ lots, job.Generates d names lots ∧ shown = [] ∧ count = (lots.map Listing.size).sum ∧
      Puts job.outDir (lots.flatMap Listing.entries)
        (job.runGenerators d names : StateM FileTree _) (job.runGenerators d names) t
  | [], t, u, shown, count, h => by
    cases h
    exact ⟨[], .nil, rfl, rfl, .of_silent (.pure _)⟩
  | name :: names, t, u, shown, count, h => by
    unfold Job.runGenerators at h ⊢
    cases hrun : job.registry.run name (job.placement d) d.elements (job.version d) with
    | error f =>
      simp only [hrun] at h
      cases h
    | ok files =>
      simp only [hrun] at h ⊢
      rw [run_bind] at h
      rcases hd : (job.deliver files : StateM FileTree _).run t with ⟨⟨first, f | n⟩, w⟩
      · rw [hd] at h
        cases h
      · rw [hd] at h
        simp only at h
        rw [run_bind] at h
        rcases hg : (job.runGenerators d names : StateM FileTree _).run w with ⟨⟨more, f | k⟩, z⟩
        · rw [hg] at h
          cases h
        · rw [hg] at h
          cases h
          obtain ⟨rfl, rfl, hputs⟩ := deliver_written hdisk hd
          obtain ⟨lots, hlots, rfl, rfl, hrest⟩ := runGenerators_written hdisk hg
          refine ⟨files :: lots, .cons hrun hlots, rfl, by simp, ?_⟩
          refine hputs.bind hd (hrest.bind_silent fun result => ?_)
          split
          · exact .pure _
          · exact .pure _

/-- A model file that is processed holds a document, and its lots are written. -/
theorem processFile_written (hdisk : job.stdout = false) {file : Path}
    (h : (processFile job file : StateM FileTree _).run t = ((shown, .ok count), u)) :
    ∃ d lots, Loads t file d ∧ job.Generates d job.generators lots ∧ shown = [] ∧
      count = (lots.map Listing.size).sum ∧ Puts job.outDir (lots.flatMap Listing.entries)
        (processFile job file : StateM FileTree _) (processFile job file) t := by
  cases hl : ((Document.load file : StateM FileTree _).run t).1 with
  | error f =>
    unfold processFile at h
    rw [run_bind, hl] at h
    cases h
  | ok d =>
    have hload : (Document.load file : StateM FileTree _).run t = (.ok d, t) := by
      refine Prod.ext hl ?_
      rw [load_run]
    rw [processFile_run hl] at h
    split at h
    · cases h
    · next more n w hg =>
      cases h
      obtain ⟨lots, hlots, rfl, rfl, hputs⟩ := runGenerators_written hdisk hg
      refine ⟨d, lots, hl, hlots, rfl, rfl, ?_⟩
      unfold processFile
      refine .after_silent (silent_load file) hload (hputs.bind_silent fun result => ?_)
      split
      · exact .pure _
      · exact .pure _

/-- **A run that writes.** If all model files are processed then each of them holds the same
document as before the run, and the lots of each are written, one model file behind the
other. -/
theorem outcomes_written (hdisk : job.stdout = false) (hr : builtin = .ok job.registry)
    {t : FileTree} : ∀ {files : List Names} {u : FileTree}, NoNewDocuments t u →
    (∀ names ∈ files, ∃ c, t.status (job.modelDir.below names) = .ok (.file c)) →
    (∀ o ∈ ((outcomes job files).run u).1, o.isSuccess = true) →
    ∃ batches : List Batch, batches.map Batch.names = files ∧ (∀ b ∈ batches, b.Of job t) ∧
      ((outcomes job files).run u).1 = batches.map Batch.written ∧
      ∀ tally, Puts job.outDir (batches.flatMap Batch.entries)
        (processFiles job tally files : StateM FileTree _) (processFiles job tally files) u
  | [], u, _, _, _ => ⟨[], rfl, by simp, rfl, fun _ => .of_silent (.pure _)⟩
  | names :: files, u, hsame, hthere, hall => by
    rcases hfile : (processFile job (job.modelDir.below names) : StateM FileTree _).run u with
      ⟨⟨shown, result⟩, w⟩
    rw [outcomes_cons hfile] at hall ⊢
    have hfirst := hall _ List.mem_cons_self
    cases result with
    | error f => cases hfirst
    | ok count =>
      obtain ⟨d, lots, hd, hlots, rfl, rfl, hputs⟩ := processFile_written hdisk hfile
      obtain ⟨c, hc⟩ := hthere names List.mem_cons_self
      have hstep : NoNewDocuments u w := by
        have hone := noNewDocuments_outcomes hr [names] u
        rwa [outcomes_cons hfile] at hone
      obtain ⟨batches, hnames, hof, hos, hrest⟩ := outcomes_written hdisk hr
        (hsame.trans hstep) (fun n hn => hthere n (List.mem_cons_of_mem _ hn))
        (fun o ho => hall o (List.mem_cons_of_mem _ ho))
      refine ⟨⟨names, lots⟩ :: batches, by rw [List.map_cons, hnames],
        List.forall_mem_cons.mpr ⟨⟨d, hsame.loads hc hd, hlots⟩, hof⟩, by rw [hos]; rfl,
        fun tally => ?_⟩
      exact hputs.bind hfile ((hrest _).bind_silent fun _ => .pure _)

end Written

/-! ### Showing -/

section Shown

variable {job : Job} {t : FileTree}

/-- All lots are shown, and nothing changes. -/
theorem runGenerators_shown (hshow : job.stdout = true) {d : Document} {names : List String}
    {lots : List GeneratedFiles} (h : job.Generates d names lots) :
    (job.runGenerators d names : StateM FileTree _).run t =
      ((lots.flatMap shownFiles, .ok (lots.map Listing.size).sum), t) := by
  have hdeliver : ∀ files : GeneratedFiles, (job.deliver files : StateM FileTree _).run t =
      ((shownFiles files, .ok files.size), t) := by
    intro files
    unfold Job.deliver
    rw [if_pos hshow]
    rfl
  induction h with
  | nil => rfl
  | cons hrun _ ih =>
    unfold Job.runGenerators
    simp only [hrun]
    rw [run_bind, hdeliver]
    simp only
    rw [run_bind, ih]
    rfl

/-- **A run that shows.** Every model file whose document is known is processed. -/
theorem outcomes_shown (hshow : job.stdout = true) : ∀ {batches : List Batch},
    (∀ b ∈ batches, b.Of job t) →
    (outcomes job (batches.map Batch.names)).run t = (batches.map Batch.shown, t)
  | [], _ => rfl
  | b :: batches, h => by
    obtain ⟨⟨d, hd, hlots⟩, hrest⟩ := List.forall_mem_cons.mp h
    have hfile : (processFile job (job.modelDir.below b.names) : StateM FileTree _).run t =
        ((b.lots.flatMap shownFiles, .ok b.count), t) := by
      rw [processFile_run hd, runGenerators_shown hshow hlots]
      rfl
    rw [List.map_cons, outcomes_cons hfile, outcomes_shown hshow hrest]
    rfl

/-- The lines on a model file that is shown: its files, and then the line on its result. -/
theorem lines_shown (b : Batch) : b.shown.lines =
    (b.entries.flatMap fun e => [.plain ("// " ++ e.1), .plain e.2]) ++ b.written.lines := by
  unfold FileOutcome.lines Batch.shown Batch.written Batch.entries
  rw [List.flatMap_assoc]
  rfl

/-- Shown or written, the model files are counted alike. -/
theorem tallyOf_shown (batches : List Batch) :
    tallyOf (batches.map Batch.shown) = tallyOf (batches.map Batch.written) := by
  unfold tallyOf
  rw [List.countP_map, List.countP_map, List.countP_map, List.countP_map]
  rfl

end Shown

/-! ### The two runs -/

section Runs

variable {a : GenerateArguments} {cwd : Path} {t u : FileTree} {ending : Ending}

/-- Without a line on a failure every model file was processed. -/
theorem isSuccess_of_report {os : List FileOutcome}
    (h : ∀ shown f, resultLine shown (.error f) ∉ runReport os) :
    ∀ o ∈ os, o.isSuccess = true := by
  intro o ho
  obtain ⟨names, shown, f | count⟩ := o
  · have hsome : os.isEmpty = false := by
      cases os with
      | nil => cases ho
      | cons _ _ => rfl
    have hline : resultLine ("/".intercalate names) (.error f) ∈
        os.flatMap FileOutcome.lines :=
      List.mem_flatMap.mpr ⟨_, ho, by simp [FileOutcome.lines]⟩
    refine absurd ?_ (h ("/".intercalate names) f)
    unfold runReport
    rw [hsome]
    simp [hline]
  · rfl

/-- What a whole job puts is what it puts on the way through the model files. -/
theorem puts_run {job : Job} {entries : List (String × String)}
    (h : ∀ tally, Puts job.outDir entries
      (processFiles job tally (foundFiles t job.modelDir) : StateM FileTree _)
      (processFiles job tally (foundFiles t job.modelDir)) t)
    (hnone : foundFiles t job.modelDir = [] → entries = []) :
    Puts job.outDir entries (job.run : StateM FileTree _) job.run t := by
  have hfound : (modelFiles job.modelDir : StateM FileTree _).run t =
      (foundFiles t job.modelDir, t) := rfl
  unfold Job.run
  refine .after_silent (silent_modelFiles _) hfound ?_
  by_cases hempty : foundFiles t job.modelDir = []
  · rw [hempty, hnone hempty]
    exact .of_silent (.pure _)
  · have hsome : (foundFiles t job.modelDir).isEmpty = false := by simpa using hempty
    rw [hsome, if_neg (by decide), if_neg (by decide)]
    exact (h ⟨0, 0⟩).bind_silent fun _ => .pure _

/-- What a run puts is what its job puts. -/
theorem puts_generate {s : Settings} {r : Registry} {batches : List Batch}
    (hready : Ready a cwd t s) (hr : builtin = .ok r)
    (hnames : batches.map Batch.names = foundFiles t (modelDirectory a cwd s))
    (hputs : ∀ tally, Puts (outputDirectory a cwd s) (batches.flatMap Batch.entries)
      (processFiles (jobOf a cwd s r) tally (foundFiles t (modelDirectory a cwd s)) :
        StateM FileTree _)
      (processFiles (jobOf a cwd s r) tally (foundFiles t (modelDirectory a cwd s))) t) :
    Puts (outputDirectory a cwd s) (batches.flatMap Batch.entries)
      (generate a cwd : StateM FileTree _) (generate a cwd) t := by
  obtain ⟨r', hr', -, hprep⟩ := prepare_of_ready hready
  obtain rfl : r = r' := Except.ok.inj (hr.symm.trans hr')
  have hjob : Puts (outputDirectory a cwd s) (batches.flatMap Batch.entries)
      ((jobOf a cwd s r).run : StateM FileTree _) (jobOf a cwd s r).run t := by
    refine puts_run hputs fun hnone => ?_
    have hbatches : batches = [] := List.map_eq_nil_iff.mp (hnames.trans hnone)
    rw [hbatches]
    rfl
  unfold generate
  exact .after_silent (silent_prepare a cwd) hprep (hjob.bind_silent fun _ => .pure _)

/-- A run that shows and is ready reports all batches and changes nothing. -/
theorem generate_shown {s : Settings} {r : Registry} {batches : List Batch}
    (hready : Ready { a with stdout := true } cwd t s) (hr : builtin = .ok r)
    (hnames : batches.map Batch.names = foundFiles t (modelDirectory a cwd s))
    (hmade : ∀ b ∈ batches, b.Of (jobOf a cwd s r) t) :
    (generate { a with stdout := true } cwd : StateM FileTree _).run t =
      (⟨runReport (batches.map Batch.shown), none⟩, t) := by
  obtain ⟨r', hr', -, hgenerate⟩ := generate_eq_outcomes hready
  obtain rfl : r = r' := Except.ok.inj (hr.symm.trans hr')
  have houtcomes : (outcomes (jobOf { a with stdout := true } cwd s r)
      (batches.map Batch.names)).run t = (batches.map Batch.shown, t) :=
    outcomes_shown rfl hmade
  rw [hnames] at houtcomes
  rw [hgenerate]
  exact congrArg (fun x : List FileOutcome × FileTree => (Ending.mk (runReport x.1) none, x.2))
    houtcomes

/-- How a run that shows goes with one that writes: the batches are what the selected
generators make of the documents below the model directory, and the calls are those that
the second made to its sink. -/
structure ShownAsWritten (a : GenerateArguments) (cwd : Path) (t : FileTree) (ending : Ending)
    (u : FileTree) (s : Settings) (r : Registry) (batches : List Batch)
    (calls : List Output.Call) : Prop where
  settings : ((Settings.load (cwd.join ⟨a.path⟩) : StateM FileTree _).run t).1 = .ok s
  registry : builtin = .ok r
  /-- There is a batch for each model file, in the order of the walk. -/
  found : batches.map Batch.names = foundFiles t (modelDirectory a cwd s)
  /-- Each batch has a lot for each selected generator, in their order. -/
  made : ∀ b ∈ batches, b.Of (jobOf a cwd s r) t
  /-- Each lot is in the order of the bytes of its keys. -/
  ordered : ∀ b ∈ batches, ∀ lot ∈ b.lots, (lot.keys.map Disk.bytesOf).Pairwise (· < ·)
  /-- What was written was counted. -/
  report : ending.report = runReport (batches.map Batch.written)
  /-- The run that shows is not refused and changes nothing. -/
  shown : (generate { a with stdout := true } cwd : StateM FileTree _).run t =
    (⟨runReport (batches.map Batch.shown), none⟩, t)
  /-- It reports the same result of each model file, behind all of its files. -/
  lines : ∀ b ∈ batches, b.shown.lines =
    (b.entries.flatMap fun e => [.plain ("// " ++ e.1), .plain e.2]) ++ b.written.lines
  /-- It counts the same. -/
  tally : tallyOf (batches.map Batch.shown) = tallyOf (batches.map Batch.written)
  /-- The files that are shown are those that the sink was called with. -/
  called : Calls (batches.flatMap Batch.entries) calls
  /-- And these were all the calls. -/
  ledger : (generate { a with stdout := false } cwd : StateM Ledger _).run ⟨t, []⟩ =
    (ending, ⟨u, calls.map (ledgerEntry (outputDirectory a cwd s))⟩)

/-- **What is shown is what would be written.** If a run that writes is not refused, and
none of its model files fails, then the same run with files only shown is not refused,
leaves the tree as it is, and reports the same; but before the line on each model file it
shows, generator by generator and in the order of the keys, each key with the text that the
first run gave to its sink for the path of this key. The tree may have links. -/
theorem generate_shows_what_it_writes (hp : t.Proper)
    (hrun : (generate { a with stdout := false } cwd : StateM FileTree _).run t = (ending, u))
    (haccepted : ending.refusal = none)
    (hclean : ∀ shown f, resultLine shown (.error f) ∉ ending.report) :
    ∃ s r batches calls, ShownAsWritten a cwd t ending u s r batches calls := by
  obtain ⟨s, r, hready, hr, -, hreport, -⟩ := generate_of_accepted hrun haccepted
  rw [hreport] at hclean
  have hthere : ∀ names ∈ foundFiles t (modelDirectory a cwd s),
      ∃ c, t.status ((modelDirectory a cwd s).below names) = .ok (.file c) := fun names hn =>
    Disk.FileTree.status_of_mem_filesBelow hp (List.mem_filter.mp hn).1
  have hbuiltin : builtin = .ok (jobOf { a with stdout := false } cwd s r).registry := hr
  obtain ⟨batches, hnames, hmade, hos, hputs⟩ :=
    outcomes_written rfl hbuiltin (.refl t) hthere (isSuccess_of_report hclean)
  obtain ⟨calls, hcalls, hnotes⟩ := puts_generate hready hr hnames hputs
  refine ⟨s, r, batches, calls, ?_⟩
  exact
    { settings := hready.settings
      registry := hr
      found := hnames
      made := hmade
      ordered := fun b _ lot _ => List.pairwise_map.mpr
        (lot.increasing_keys.imp fun hlt => Disk.bytesOf_lt hlt)
      report := hreport.trans (congrArg runReport hos)
      shown := generate_shown ⟨hready.settings, hready.models, hready.some_selected,
        hready.registered⟩ hr hnames hmade
      lines := fun b _ => lines_shown b
      tally := tallyOf_shown batches
      called := hcalls
      ledger := by
        rw [hnotes [], hrun, List.nil_append]
        rfl }

end Runs

/-- The stubs of this project, each made twice, are shown as they would be written. -/
theorem generate_shows_what_it_writes_twin : ∃ u r batches calls,
    (generate twinArguments ⟨"/"⟩ : StateM FileTree _).run twinTree =
      (⟨fullReport twinArguments twinSettings twinDocuments, none⟩, u) ∧
    ShownAsWritten twinArguments ⟨"/"⟩ twinTree
      ⟨fullReport twinArguments twinSettings twinDocuments, none⟩ u twinSettings r batches calls ∧
    batches.map Batch.names = [["a.json"], ["b.json"]] := by
  obtain ⟨u, hrun⟩ := twinTree_run
  have hsame : { twinArguments with stdout := false } = twinArguments := rfl
  obtain ⟨s, r, batches, calls, h⟩ := generate_shows_what_it_writes (a := twinArguments)
    twinTree_proper (hsame ▸ hrun) rfl (error_notMem_fullReport _ _ _)
  obtain rfl : twinSettings = s := Except.ok.inj (twinTree_ready.settings.symm.trans h.settings)
  have hfound : foundFiles twinTree (modelDirectory twinArguments ⟨"/"⟩ twinSettings) =
      twinDocuments.map Prod.fst := twinTree_hasDocuments.files
  refine ⟨u, r, batches, calls, hrun, h, ?_⟩
  rw [h.found, hfound]
  rfl

end Project
end ModelStubs
