/-
# What a run refuses

Before `generate` goes to the model files it looks at the settings, then at the model
directory, then at the generators, and it gives up at the first thing that is wrong. What
can be wrong is listed by `Project.GivesUp`, in words about the tree and the arguments; each
case says that what is looked at before is in order. Looking at things changes nothing, so
a run that gives up leaves the tree as it is (`Project.generate_of_givesUp`). A run that has no
reason to give up is ready (`Project.givesUp_or_ready`).

Key definitions: `Project.Settings.Kept`, `Project.Settings.Broken`, `Project.GivesUp`.
Key theorems: `Project.Settings.load_eq_ok_iff`, `Project.Settings.load_of_broken`,
`Project.prepare_of_givesUp`, `Project.generate_of_givesUp`, `Project.givesUp_or_ready`.
-/
import ModelStubs.Proofs.GenerateRun

namespace ModelStubs
namespace Project

open Disk (Path FileTree)

/-! ### The settings -/

namespace Settings

/-- The settings of a project: those that its file spells, or those of a project that says
nothing if there is no file. -/
inductive Kept (t : FileTree) (project : Path) : Settings → Prop
  | absent (hfile : t.holds (file project) = false) : Kept t project default
  | spelled {source : String} {s : Settings} (hfile : t.holds (file project) = true)
      (hread : t.readText (file project) = .ok source) (hs : shape.ofText source = .ok s) :
      Kept t project s

/-- There is a settings file, but it cannot be read, or what it says are no settings. -/
inductive Broken (t : FileTree) (project : Path) : Failure → Prop
  | unreadable {e : Disk.Error} (hfile : t.holds (file project) = true)
      (hread : t.readText (file project) = .error e) : Broken t project (.unreadable e)
  | invalid {source : String} {f : Json.Fault} (hfile : t.holds (file project) = true)
      (hread : t.readText (file project) = .ok source) (hf : shape.ofText source = .error f) :
      Broken t project (.invalid f)

variable {t : FileTree} {project : Path}

theorem kept_or_broken (t : FileTree) (project : Path) :
    (∃ s, Kept t project s) ∨ ∃ f, Broken t project f := by
  cases hfile : t.holds (file project) with
  | false => exact .inl ⟨_, .absent hfile⟩
  | true =>
    cases hread : t.readText (file project) with
    | error e => exact .inr ⟨_, .unreadable hfile hread⟩
    | ok source =>
      cases hs : shape.ofText source with
      | error f => exact .inr ⟨_, .invalid hfile hread hs⟩
      | ok s => exact .inl ⟨s, .spelled hfile hread hs⟩

theorem load_of_kept {s : Settings} (h : Kept t project s) :
    (load project : StateM FileTree _).run t = (.ok s, t) := by
  refine Prod.ext ?_ (load_settings_state project t)
  cases h with
  | absent hfile => exact load_settings_of_absent hfile
  | spelled _ hread hs => exact load_settings_of_text hread hs

theorem load_of_broken {f : Failure} (h : Broken t project f) :
    (load project : StateM FileTree _).run t = (.error f, t) := by
  cases h with
  | unreadable hfile hread =>
    rw [load, run_bind, run_holds, hfile, if_pos rfl, run_bind, run_readText, hread]
    rfl
  | invalid hfile hread hf =>
    rw [load, run_bind, run_holds, hfile, if_pos rfl, run_bind, run_readText, hread]
    simp only [hf]
    rfl

/-- The settings that are loaded are those that the project has. -/
theorem load_eq_ok_iff {s : Settings} :
    ((load project : StateM FileTree _).run t).1 = .ok s ↔ Kept t project s := by
  constructor
  · intro h
    rcases kept_or_broken t project with ⟨s', hs⟩ | ⟨f, hf⟩
    · rw [load_of_kept hs] at h
      exact Except.ok.inj h ▸ hs
    · rw [load_of_broken hf] at h
      cases h
  · intro h
    rw [load_of_kept h]

end Settings

/-! ### The generators -/

/-- The unknown name that is found is the first. -/
theorem firstUnknown_eq_some_iff {r : Registry} {names : List String} {name : String} :
    firstUnknown r names = some name ↔ ∃ before after, names = before ++ name :: after ∧
      (∀ known ∈ before, known ∈ r.names) ∧ name ∉ r.names := by
  have hknown : ∀ known, (!(r.get? known).isNone) = true ↔ known ∈ r.names := by
    intro known
    rw [Bool.not_eq_true', ← Bool.not_eq_true, Option.isNone_iff_eq_none,
      Registry.get?_eq_none_iff, not_not]
  simp only [firstUnknown, List.find?_eq_some_iff_append, Option.isNone_iff_eq_none,
    Registry.get?_eq_none_iff, hknown]
  constructor
  · rintro ⟨hname, before, after, rfl, hbefore⟩
    exact ⟨before, after, rfl, hbefore, hname⟩
  · rintro ⟨before, after, rfl, hbefore, hname⟩
    exact ⟨hname, before, after, rfl, hbefore⟩

/-! ### Giving up -/

/-- Why a run gives up: the settings are broken; or they are not, but there is no model
directory; or there is one, but no generator is selected, or one that is not registered
behind others that are. -/
inductive GivesUp (a : GenerateArguments) (cwd : Path) (t : FileTree) : Refusal → Prop
  | settings {f : Settings.Failure} (h : Settings.Broken t (cwd.join ⟨a.path⟩) f) :
      GivesUp a cwd t (.settings f)
  | models {s : Settings} (hs : Settings.Kept t (cwd.join ⟨a.path⟩) s)
      (hmodels : t.holds (modelDirectory a cwd s) = false) :
      GivesUp a cwd t (.noModelDirectory (modelDirectory a cwd s))
  | unselected {s : Settings} (hs : Settings.Kept t (cwd.join ⟨a.path⟩) s)
      (hmodels : t.holds (modelDirectory a cwd s) = true) (hnone : selection a s = []) :
      GivesUp a cwd t .noGenerators
  | unknown {s : Settings} {r : Registry} {before after : List String} {name : String}
      (hs : Settings.Kept t (cwd.join ⟨a.path⟩) s)
      (hmodels : t.holds (modelDirectory a cwd s) = true) (hr : builtin = .ok r)
      (hselection : selection a s = before ++ name :: after)
      (hbefore : ∀ known ∈ before, known ∈ r.names) (hname : name ∉ r.names) :
      GivesUp a cwd t (.unknownGenerator name r.names)

variable {a : GenerateArguments} {cwd : Path} {t : FileTree}

/-- A run that has a reason to give up finds it, and changes nothing. -/
theorem prepare_of_givesUp {refusal : Refusal} (h : GivesUp a cwd t refusal) :
    (prepare a cwd : StateM FileTree _).run t = (.error refusal, t) := by
  cases h with
  | settings h =>
    rw [prepare, run_bind, Settings.load_of_broken h]
    rfl
  | models hs hmodels =>
    rw [prepare_of_loaded (Settings.load_eq_ok_iff.mpr hs) rfl, hmodels]
    rfl
  | unselected hs hmodels hnone =>
    rw [prepare_of_loaded (Settings.load_eq_ok_iff.mpr hs) rfl, if_pos hmodels, hnone]
    rfl
  | @unknown s r before after name hs hmodels hr hselection hbefore hname =>
    have hsome : (selection a s).isEmpty = false := by simp [hselection]
    have hselected : selected r (selection a s) = .error (.unknownGenerator name r.names) := by
      rw [selected, hsome, firstUnknown_eq_some_iff.mpr ⟨_, _, hselection, hbefore, hname⟩]
      rfl
    rw [prepare_of_loaded (Settings.load_eq_ok_iff.mpr hs) hr, if_pos hmodels, hselected]

/-- A run that gives up reports nothing but why, and leaves the tree as it is. -/
theorem generate_of_givesUp {refusal : Refusal} (h : GivesUp a cwd t refusal) :
    (generate a cwd : StateM FileTree _).run t = (⟨[], some refusal⟩, t) := by
  unfold generate
  rw [run_bind, prepare_of_givesUp h]
  rfl

/-- A run has a reason to give up, or it is ready. -/
theorem givesUp_or_ready (a : GenerateArguments) (cwd : Path) (t : FileTree) :
    (∃ refusal, GivesUp a cwd t refusal) ∨ ∃ s, Ready a cwd t s := by
  rcases Settings.kept_or_broken t (cwd.join ⟨a.path⟩) with ⟨s, hs⟩ | ⟨f, hf⟩
  rotate_left
  · exact .inl ⟨_, .settings hf⟩
  cases hmodels : t.holds (modelDirectory a cwd s) with
  | false => exact .inl ⟨_, .models hs hmodels⟩
  | true =>
    by_cases hnone : selection a s = []
    · exact .inl ⟨_, .unselected hs hmodels hnone⟩
    obtain ⟨r, hr⟩ : ∃ r, builtin = .ok r := ⟨_, rfl⟩
    cases hknown : firstUnknown r (selection a s) with
    | some name =>
      obtain ⟨before, after, hselection, hbefore, hname⟩ := firstUnknown_eq_some_iff.mp hknown
      exact .inl ⟨_, .unknown hs hmodels hr hselection hbefore hname⟩
    | none =>
      exact .inr ⟨s, Settings.load_eq_ok_iff.mpr hs, hmodels, hnone, r, hr,
        firstUnknown_eq_none_iff.mp hknown⟩

end Project
end ModelStubs
