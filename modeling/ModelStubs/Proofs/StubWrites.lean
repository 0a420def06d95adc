/-
# Only stubs are written

Whatever a document calls its classes and its namespace, the key of a stub ends in the
extension of stubs, and the file is named by the end of its key. So a run changes the tree
in steps that make directories or put files of such names (`Project.changes_outcomes`),
wherever the output directory lies. No model file and no settings are ever written over,
because their names end otherwise.

Key definitions: `Project.IsStubName`.
Key theorems: `Project.namedFiles_of_run`, `Project.changes_outcomes`,
`Project.outcomes_of_stdout`, `Project.generate_writes_stubs`.
-/
import ModelStubs.Proofs.Changes
import ModelStubs.Proofs.SpoiledFile

namespace ModelStubs
namespace Project

open Disk (Path Names FileTree Content)
open Disk.FileTree (Grows)
open Output (Below Changes NamedFiles)

/-- The name ends in the extension of stubs. -/
def IsStubName (n : String) : Prop := ∃ q, n = q ++ ".sample"

theorem not_isStubName_json (q : String) : ¬ IsStubName (q ++ ".json") :=
  fun ⟨q', h⟩ => append_json_ne_append_sample q q' h

/-- A generator that is run makes stubs. -/
theorem eq_stubs_of_run {r : Registry} (hr : builtin = .ok r) {name : String}
    {p : Model.Placement} {elements : List Model.Element} {version : String}
    {files : GeneratedFiles} (h : r.run name p elements version = .ok files) :
    files = Stub.stubs p elements version := by
  have hregistered : name ∈ r.names := by
    unfold Registry.run at h
    split at h
    · cases h
    · next g hg =>
      have hname : g.name = name := by simpa using List.find?_some hg
      exact hname ▸ List.mem_map_of_mem (List.mem_of_find?_eq_some hg)
  rw [run_of_registered hr hregistered] at h
  exact (Except.ok.inj h).symm

/-- The last name of every key that a generator makes is that of a stub. -/
theorem namedFiles_of_run {r : Registry} (hr : builtin = .ok r) {name : String}
    {p : Model.Placement} {elements : List Model.Element} {version : String}
    {files : GeneratedFiles} (h : r.run name p elements version = .ok files) :
    NamedFiles IsStubName files := by
  rw [eq_stubs_of_run hr h]
  intro key hkey n hn
  obtain ⟨q, hq⟩ := Stub.last_part hkey
  rw [hq] at hn
  exact ⟨q, (Option.some.inj hn).symm⟩

/-- Going through model files makes directories and puts stubs, and nothing else. -/
theorem changes_outcomes {job : Job} (hr : builtin = .ok job.registry) (files : List Names)
    {t : FileTree} (ht : t.Unlinked) :
    Changes job.outDir IsStubName t ((outcomes job files).run t).2 :=
  compositional_outcomes Output.performs_compositional (fun _ _ _ _ => .refl)
    (fun _ _ _ _ hlot => Output.performs_writeFiles (namedFiles_of_run hr hlot)) t ht

/-- The request leaves the tree as it is. -/
def Still {α : Type} (x : StateM FileTree α) : Prop := ∀ t, (x.run t).2 = t

theorem still_compositional : Disk.Compositional Still where
  pure := fun _ _ => rfl
  bind := by
    intro α β x f hx hf t
    exact (hf (x.run t).1 (x.run t).2).trans (hx t)

/-- If the files are only shown then the tree stays as it is. -/
theorem outcomes_of_stdout {job : Job} (h : job.stdout = true) (files : List Names)
    (t : FileTree) : ((outcomes job files).run t).2 = t := by
  refine compositional_outcomes still_compositional (fun _ _ _ => rfl) (fun hdisk => ?_) t
  rw [h] at hdisk
  cases hdisk

/-- **A run only writes stubs, and only below its output directory.** In a tree without
links, whatever the run is asked for and however it ends: directories stay directories and
files stay files; a file that is new or changed has the name of a stub and lies below the
place that the path of the output directory leads to by then (the empty path leads nowhere
by itself); so every model file and all settings keep what they hold. If the files are only
shown then nothing changes. -/
theorem generate_writes_stubs (a : GenerateArguments) (cwd : Path) {t u : FileTree}
    {ending : Ending} (ht : t.Unlinked)
    (h : (generate a cwd : StateM FileTree _).run t = (ending, u)) :
    Grows t u ∧
    (∀ place content, u.HasFile place content → ¬ t.HasFile place content →
      (∃ q, place.getLast? = some (q ++ ".sample")) ∧
      ∃ s, ((Settings.load (cwd.join ⟨a.path⟩) : StateM FileTree _).run t).1 = .ok s ∧
        Below (outputDirectory a cwd s).place place ∧
        ((outputDirectory a cwd s).text ≠ "" →
          u.resolve (outputDirectory a cwd s) = .ok (outputDirectory a cwd s).place)) ∧
    (∀ place content,
      (∃ q, place.getLast? = some (q ++ ".json")) ∨ place.getLast? = some settingsName →
      (u.HasFile place content ↔ t.HasFile place content)) ∧
    (a.stdout = true → u = t) := by
  rcases generate_cases a cwd t with ⟨refusal, hrun⟩ | ⟨s, r, hready, hr, -, hrun⟩
  · rw [hrun] at h
    cases h
    exact ⟨.refl t, fun _ _ hu hn => absurd hu hn, fun _ _ _ => Iff.rfl, fun _ => rfl⟩
  · rw [hrun] at h
    cases h
    have hjob : builtin = .ok (jobOf a cwd s r).registry := hr
    have hchanges := changes_outcomes hjob (foundFiles t (modelDirectory a cwd s)) ht
    have hunlinked := hchanges.grows.unlinked ht
    refine ⟨hchanges.grows, fun place content hu hn => ⟨?_, s, hready.settings, ?_, ?_⟩, ?_, ?_⟩
    · by_contra hname
      refine hn ((hchanges.hasFile_iff fun n hlast hstub => ?_).mp hu)
      obtain ⟨q, rfl⟩ := hstub
      exact hname ⟨q, hlast⟩
    · by_contra hbelow
      exact hn ((hchanges.confined.file place content hbelow).mp hu)
    · intro hne
      have hdir := (hchanges.reached hu hn).resolve_left hne
      obtain ⟨place', hresolve, -⟩ := Disk.FileTree.isDirectory_iff.mp hdir
      rw [Disk.FileTree.place_of_resolve hunlinked hresolve] at hresolve
      exact hresolve
    · intro place content hjson
      have hending : ∃ q, place.getLast? = some (q ++ ".json") := by
        rcases hjson with hjson | hsettings
        · exact hjson
        · exact ⟨"modelgen.config", hsettings⟩
      obtain ⟨q, hq⟩ := hending
      refine hchanges.hasFile_iff fun n hlast => ?_
      rw [hq] at hlast
      cases hlast
      exact not_isStubName_json q
    · intro hstdout
      have hshown : (jobOf a cwd s r).stdout = true := hstdout
      exact outcomes_of_stdout hshown _ t

/-- The one new file of a run into the model directory is a stub, and the document that
stands beside it is what it was. -/
theorem generate_writes_stubs_crossed : crossedTree.Unlinked ∧ ∃ report u,
    (generate crossedArguments ⟨"/"⟩ : StateM FileTree _).run crossedTree = (⟨report, none⟩, u) ∧
    u.readText crossedFile = .ok crossedText ∧
    u.HasFile ["w", "model", "a.json"] (.text (Model.Document.shape.compact (twin "one"))) ∧
    ∀ place content, u.HasFile place content → ¬ crossedTree.HasFile place content →
      ∃ q, place.getLast? = some (q ++ ".sample") := by
  obtain ⟨report, u, hrun, htext⟩ := crossedTree_run
  obtain ⟨-, hstub, hkept, -⟩ := generate_writes_stubs crossedArguments ⟨"/"⟩ crossedTree_unlinked hrun
  exact ⟨crossedTree_unlinked, report, u, hrun, htext, (hkept _ _ (.inl ⟨"a", rfl⟩)).mpr rfl,
    fun place content hu hn => (hstub place content hu hn).1⟩

end Project
end ModelStubs
