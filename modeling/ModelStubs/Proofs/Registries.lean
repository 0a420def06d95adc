/-
# What a registry holds

A registry is reached by attempts to register generators, some of which fail because the name
is taken. No two of the generators that it holds have one name, so it does not matter
whether a generator is looked for from the front, as for a single run, or whether later ones
replace earlier ones, as when all of them are run (`Registry.runAll_agrees`). Among
generators with different names no attempt fails, and the order of the attempts shows only
in the order of the names. For any attempts, the first at a name is the one that counts: it
decides where the name stands and which generator is found under it, and each later one
fails (`Registry.ofAttempts_history`).

Key definitions: `Registry.attempt`, `Registry.ofAttempts`.
Key theorems: `Registry.get?_eq_some_iff`, `Registry.run_eq_ok_iff`, `Registry.get?_runAll`,
`Registry.generators_ofAttempts`, `Registry.runAll_agrees`, `Registry.names_ofAttempts`,
`Registry.get?_ofAttempts`, `Registry.ofAttempts_history`.
-/
import Mathlib.Data.List.Nodup
import ModelStubs.Generator.Registry
import ModelStubs.Proofs.Listings

namespace ModelStubs
namespace Registry

open Model (Element Placement)

/-- The registry after an attempt to register a generator. One that fails changes nothing. -/
def attempt (r : Registry) (g : Generator) : Registry :=
  match r.register g with
  | .ok s => s
  | .error _ => r

/-- The registry after attempts to register generators, one after the other. -/
def ofAttempts (gs : List Generator) : Registry := gs.foldl attempt empty

/-! ### Looking generators up -/

section Lookup

variable {r : Registry} {name : String} {p : Placement} {elements : List Element}
  {version : String} {files : GeneratedFiles}

theorem mem_names_iff : name ∈ r.names ↔ ∃ g ∈ r.generators, g.name = name := by
  rw [names, List.mem_map]

/-- The generator that is found is the only one of the name. -/
theorem get?_eq_some_iff {g : Generator} :
    r.get? name = some g ↔ g ∈ r.generators ∧ g.name = name := by
  unfold get?
  constructor
  · intro h
    exact ⟨List.mem_of_find?_eq_some h, by simpa using List.find?_some h⟩
  · rintro ⟨hm, rfl⟩
    cases hfind : r.generators.find? fun k => k.name == g.name with
    | none =>
      have hnot := List.find?_eq_none.mp hfind g hm
      simp at hnot
    | some k =>
      have hname : k.name = g.name := by simpa using List.find?_some hfind
      have hk := List.mem_of_find?_eq_some hfind
      rw [List.inj_on_of_nodup_map r.distinct hk hm hname]

theorem get?_eq_none_iff : r.get? name = none ↔ name ∉ r.names := by
  rw [mem_names_iff, Option.eq_none_iff_forall_ne_some]
  simp only [ne_eq, get?_eq_some_iff, not_exists]

/-- A run gives what the generator of the name makes. -/
theorem run_eq_ok_iff : r.run name p elements version = .ok files ↔
    ∃ g ∈ r.generators, g.name = name ∧ g.generate p elements version = files := by
  unfold run
  constructor
  · intro h
    split at h
    · cases h
    · next g hg =>
      obtain ⟨hm, hname⟩ := get?_eq_some_iff.mp hg
      exact ⟨g, hm, hname, Except.ok.inj h⟩
  · rintro ⟨g, hm, hname, rfl⟩
    rw [get?_eq_some_iff.mpr ⟨hm, hname⟩]

/-- A generator that is registered runs. -/
theorem run_of_mem (h : name ∈ r.names) :
    ∃ files, r.run name p elements version = .ok files := by
  obtain ⟨g, hm, hname⟩ := mem_names_iff.mp h
  exact ⟨_, run_eq_ok_iff.mpr ⟨g, hm, hname, rfl⟩⟩

/-- Without a generator of the name there is no run. -/
theorem run_of_not_mem (h : name ∉ r.names) :
    r.run name p elements version = .error (.unknownGenerator name) := by
  rw [run, get?_eq_none_iff.mpr h]

/-- Running all generators gives what each of them makes. -/
theorem get?_runAll : (r.runAll p elements version).get? name = some files ↔
    ∃ g ∈ r.generators, g.name = name ∧ g.generate p elements version = files := by
  have hnames : ((r.generators.map fun g => (g.name, g.generate p elements version)).map
      Prod.fst).Nodup := by
    rw [List.map_map]
    exact r.distinct
  rw [runAll, Listing.get?_ofList_of_nodup hnames, List.mem_map]
  simp only [Prod.mk.injEq]

/-- None of the generators is lost. -/
theorem size_runAll : (r.runAll p elements version).size = r.generators.length := by
  have hnames : ((r.generators.map fun g => (g.name, g.generate p elements version)).map
      Prod.fst) = r.generators.map Generator.name := by
    rw [List.map_map]
    rfl
  rw [runAll, Listing.size_ofList, hnames, List.toFinset_card_of_nodup r.distinct,
    List.length_map]

end Lookup

/-! ### Attempts -/

/-- An attempt at a name that is taken changes nothing. -/
theorem attempt_of_mem {r : Registry} {g : Generator} (h : g.name ∈ r.names) :
    r.attempt g = r := by
  rw [attempt, register, dif_pos h]

/-- An attempt at a name that is free puts the generator behind the others. -/
theorem generators_attempt {r : Registry} {g : Generator} (h : g.name ∉ r.names) :
    (r.attempt g).generators = r.generators ++ [g] := by
  rw [attempt, register, dif_neg h]

/-- After an attempt the name is taken, whether it failed or not. -/
theorem mem_names_attempt {r : Registry} {g : Generator} {name : String} :
    name ∈ (r.attempt g).names ↔ name ∈ r.names ∨ g.name = name := by
  by_cases h : g.name ∈ r.names
  · rw [attempt_of_mem h]
    exact ⟨.inl, fun hm => hm.elim id fun e => e ▸ h⟩
  · rw [names, generators_attempt h, List.map_append, List.mem_append]
    simp [names, eq_comm]

/-- After attempts the names are those that were attempted, and those from before. -/
theorem mem_names_attempts {name : String} : ∀ {gs : List Generator} {r : Registry},
    name ∈ (gs.foldl attempt r).names ↔ name ∈ r.names ∨ ∃ g ∈ gs, g.name = name
  | [], r => by simp
  | g :: gs, r => by
    rw [List.foldl_cons, mem_names_attempts, mem_names_attempt, or_assoc]
    simp

/-- The names are those that were attempted. -/
theorem mem_names_ofAttempts {gs : List Generator} {name : String} :
    name ∈ (ofAttempts gs).names ↔ ∃ g ∈ gs, g.name = name := by
  rw [ofAttempts, mem_names_attempts]
  simp [names, empty]

/-- Attempts at names that differ from each other and from those that are taken do not fail. -/
theorem generators_attempts : ∀ {gs : List Generator} {r : Registry},
    (r.names ++ gs.map Generator.name).Nodup →
    (gs.foldl attempt r).generators = r.generators ++ gs
  | [], r, _ => by simp
  | g :: gs, r, h => by
    have hfree : g.name ∉ r.names := by
      intro hm
      exact (List.nodup_append.mp h).2.2 g.name hm g.name (by simp) rfl
    have hnames : (r.attempt g).names = r.names ++ [g.name] := by
      rw [names, generators_attempt hfree, List.map_append]
      rfl
    have hrest : ((r.attempt g).names ++ gs.map Generator.name).Nodup := by simpa [hnames] using h
    rw [List.foldl_cons, generators_attempts hrest, generators_attempt hfree, List.append_assoc]
    rfl

/-- Generators with different names are all registered, in their order. -/
theorem generators_ofAttempts {gs : List Generator} (h : (gs.map Generator.name).Nodup) :
    (ofAttempts gs).generators = gs :=
  generators_attempts (by simpa [names, empty] using h)

/-! ### Running all -/

/-- **Running all generators agrees with running each.** Whatever was attempted, the names
that are taken are those that were attempted; running all generators gives one entry for
each that is registered, under exactly these names, and under each name what a run of this
name gives; and a run of any other name fails and tells the name. If the names are different
then all generators are registered, and the order of the attempts makes no difference to
what running all of them gives. -/
theorem runAll_agrees (gs : List Generator) (p : Placement) (elements : List Element)
    (version : String) :
    (∀ name, name ∈ (ofAttempts gs).names ↔ ∃ g ∈ gs, g.name = name) ∧
    (∀ name, name ∈ ((ofAttempts gs).runAll p elements version).keys ↔
      name ∈ (ofAttempts gs).names) ∧
    ((ofAttempts gs).runAll p elements version).size = (ofAttempts gs).generators.length ∧
    (∀ name files, ((ofAttempts gs).runAll p elements version).get? name = some files ↔
      (ofAttempts gs).run name p elements version = .ok files) ∧
    (∀ name, name ∉ (ofAttempts gs).names →
      (ofAttempts gs).run name p elements version = .error (.unknownGenerator name)) ∧
    ((gs.map Generator.name).Nodup → (ofAttempts gs).generators = gs ∧
      ∀ gs' : List Generator, gs.Perm gs' →
        (ofAttempts gs').runAll p elements version = (ofAttempts gs).runAll p elements version) := by
  refine ⟨fun name => mem_names_ofAttempts, fun name => ?_, size_runAll,
    fun name files => get?_runAll.trans run_eq_ok_iff.symm, fun name => run_of_not_mem,
    fun hnodup => ⟨generators_ofAttempts hnodup, fun gs' hperm => ?_⟩⟩
  · rw [Listing.mem_keys_iff, mem_names_iff]
    simp only [get?_runAll]
    constructor
    · rintro ⟨_, g, hg, hname, -⟩
      exact ⟨g, hg, hname⟩
    · rintro ⟨g, hg, hname⟩
      exact ⟨_, g, hg, hname, rfl⟩
  · have hnodup' : (gs'.map Generator.name).Nodup := (hperm.map _).nodup_iff.mp hnodup
    refine Listing.ext_get? fun name => Option.ext fun files => ?_
    rw [get?_runAll, get?_runAll, generators_ofAttempts hnodup, generators_ofAttempts hnodup']
    simp only [hperm.mem_iff]

/-- A generator that makes one file, with its name and the version. -/
def labelled (name : String) : Generator :=
  ⟨name, fun _ _ version => Listing.ofList [(name, name ++ " " ++ version)]⟩

/-- Two generators registered in either order make the same files. -/
theorem runAll_agrees_swapped :
    ([labelled "More", labelled "Names"].map Generator.name).Nodup ∧
    (ofAttempts [labelled "Names", labelled "More"]).runAll (.ofNamespace "") [] "1" =
      (ofAttempts [labelled "More", labelled "Names"]).runAll (.ofNamespace "") [] "1" := by
  have hnodup : ([labelled "More", labelled "Names"].map Generator.name).Nodup := by decide
  obtain ⟨-, -, -, -, -, hdistinct⟩ :=
    runAll_agrees [labelled "More", labelled "Names"] (.ofNamespace "") [] "1"
  exact ⟨hnodup, (hdistinct hnodup).2 _ (.swap _ _ _)⟩

/-! ### The history of attempts -/

/-- One attempt more. -/
theorem ofAttempts_concat (gs : List Generator) (g : Generator) :
    ofAttempts (gs ++ [g]) = (ofAttempts gs).attempt g := by
  rw [ofAttempts, List.foldl_concat]
  rfl

/-- A registration fails exactly if the name is taken, and the failure tells the name. -/
theorem register_eq_error_iff {r : Registry} {g : Generator} {f : Failure} :
    r.register g = .error f ↔ g.name ∈ r.names ∧ f = .duplicateGenerator g.name := by
  by_cases h : g.name ∈ r.names
  · rw [register, dif_pos h]
    simp [h, eq_comm]
  · rw [register, dif_neg h]
    simp [h]

theorem names_attempt (r : Registry) (g : Generator) :
    (r.attempt g).names = if g.name ∈ r.names then r.names else r.names ++ [g.name] := by
  split
  · next h => rw [attempt_of_mem h]
  · next h =>
    rw [names, generators_attempt h, List.map_append]
    rfl

/-- A generator is found if it was before, and otherwise only if the attempt was at its
name. -/
theorem get?_attempt (r : Registry) (g : Generator) (name : String) :
    (r.attempt g).get? name = (r.get? name).or (if g.name = name then some g else none) := by
  by_cases h : g.name ∈ r.names
  · rw [attempt_of_mem h]
    split
    · next hname =>
      have hsome : (r.get? name).isSome := by
        rw [Option.isSome_iff_ne_none, ne_eq, get?_eq_none_iff, not_not]
        exact hname ▸ h
      rw [Option.or_of_isSome hsome]
    · rw [Option.or_none]
  · rw [get?, generators_attempt h, List.find?_append, List.find?_singleton]
    simp [get?]

/-- The names are those of the attempts, each where it was attempted first. -/
theorem names_ofAttempts (gs : List Generator) :
    (ofAttempts gs).names = (gs.map Generator.name).eraseDups := by
  induction gs using List.reverseRecOn with
  | nil => rfl
  | append_singleton gs g ih =>
    rw [ofAttempts_concat, names_attempt, ih, List.map_append, List.eraseDups_append]
    by_cases h : g.name ∈ gs.map Generator.name
    · rw [if_pos (List.mem_eraseDups.mpr h)]
      simp [List.removeAll, List.mem_map.mp h]
    · rw [if_neg (mt List.mem_eraseDups.mp h)]
      simp [List.removeAll, mt List.mem_map.mpr h, List.eraseDups_cons]

/-- The generator that is found under a name is that of the first attempt at it. -/
theorem get?_ofAttempts (gs : List Generator) (name : String) :
    (ofAttempts gs).get? name = gs.find? fun g => g.name == name := by
  induction gs using List.reverseRecOn with
  | nil => rfl
  | append_singleton gs g ih =>
    rw [ofAttempts_concat, get?_attempt, ih, List.find?_append, List.find?_singleton]
    simp

/-- Already the first attempt leaves a generator behind. -/
theorem isEmpty_ofAttempts_iff {gs : List Generator} :
    (ofAttempts gs).isEmpty = true ↔ gs = [] := by
  have hnames : (ofAttempts gs).isEmpty = true ↔ (ofAttempts gs).names = [] := by
    rw [isEmpty, names, List.isEmpty_iff, List.map_eq_nil_iff]
  rw [hnames, List.eq_nil_iff_forall_not_mem, List.eq_nil_iff_forall_not_mem]
  simp only [mem_names_ofAttempts]
  constructor
  · exact fun h g hg => h g.name ⟨g, hg, rfl⟩
  · rintro h name ⟨g, hg, -⟩
    exact h g hg

/-- **What the attempts leave behind.** Whatever was attempted, the names are those of the
attempts with only the first occurrence of each; an attempt fails exactly if one before it
was at the same name, its failure tells the name and the registry stays what it was; under
a name the generator of the first attempt at it is found, and none if there was no such
attempt; and the registry is empty exactly if there was no attempt at all. -/
theorem ofAttempts_history (gs : List Generator) :
    (ofAttempts gs).names = (gs.map Generator.name).eraseDups ∧
    (∀ before g after, gs = before ++ g :: after →
      ((∃ f, (ofAttempts before).register g = .error f) ↔ ∃ k ∈ before, k.name = g.name) ∧
      ∀ f, (ofAttempts before).register g = .error f →
        f = .duplicateGenerator g.name ∧ ofAttempts (before ++ [g]) = ofAttempts before) ∧
    (∀ name, (ofAttempts gs).get? name = gs.find? fun g => g.name == name) ∧
    ((ofAttempts gs).isEmpty = true ↔ gs = []) := by
  refine ⟨names_ofAttempts gs, fun before g after _ => ⟨?_, fun f h => ?_⟩,
    get?_ofAttempts gs, isEmpty_ofAttempts_iff⟩
  · simp only [register_eq_error_iff, exists_and_left, exists_eq, and_true]
    exact mem_names_ofAttempts
  · obtain ⟨htaken, hf⟩ := register_eq_error_iff.mp h
    exact ⟨hf, by rw [ofAttempts_concat, attempt_of_mem htaken]⟩

/-- A generator that makes no files. -/
def silent (name : String) : Generator := ⟨name, fun _ _ _ => Listing.ofList []⟩

/-- The second of three attempts is at a name that is taken: the generator that is found under
it remains the first. -/
theorem ofAttempts_history_repeated :
    (ofAttempts ([labelled "Names"] ++ silent "Names" :: [labelled "More"])).names =
      ["Names", "More"] ∧
    (ofAttempts [labelled "Names"]).register (silent "Names") =
      .error (.duplicateGenerator "Names") ∧
    ofAttempts ([labelled "Names"] ++ [silent "Names"]) = ofAttempts [labelled "Names"] ∧
    (ofAttempts ([labelled "Names"] ++ silent "Names" :: [labelled "More"])).get? "Names" =
      some (labelled "Names") := by
  obtain ⟨hnames, hfails, hget, -⟩ :=
    ofAttempts_history ([labelled "Names"] ++ silent "Names" :: [labelled "More"])
  have herror : (ofAttempts [labelled "Names"]).register (silent "Names") =
      .error (.duplicateGenerator "Names") := by
    rw [register_eq_error_iff]
    exact ⟨by decide, rfl⟩
  exact ⟨hnames.trans (by decide), herror, ((hfails _ _ _ rfl).2 _ herror).2,
    (hget "Names").trans rfl⟩

end Registry
end ModelStubs
