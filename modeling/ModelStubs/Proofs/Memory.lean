/-
# Files kept in memory

A memory sink takes every call, so writing into it fails only at the keys. Two keys
with the same parts lead to one path, where the later key wins: the entry of a path
holds the text of the greatest key that leads there (`Output.memory_keeps_last`).
Hence every file has an entry of its own exactly if no two keys have the same parts;
`a/b` and `a//b` do, and one of them is lost (`Output.double_slash_overwrites`).

Key definitions: `Output.rememberAll`.
Key theorems: `Output.get?_rememberAll`, `Output.memory_keeps_last`.
-/
import Mathlib.Data.List.Induction
import ModelStubs.Proofs.Keys
import ModelStubs.Proofs.Sinks

namespace ModelStubs
namespace Output

open Disk (Path Component)

/-- The memory after calls. -/
def rememberAll (files : MemoryFiles) (calls : List Call) : MemoryFiles :=
  calls.foldl (fun files c => remember files c.1 c.2) files

theorem memorySink_call (files : MemoryFiles) (c : Call) :
    memorySink.call files c = (.ok c.1, remember files c.1 c.2) := rfl

/-- A memory sink takes every call. -/
theorem memorySink_succeeds : ∀ (calls : List Call) (files : MemoryFiles),
    memorySink.Succeeds files calls (calls.map Prod.fst) (rememberAll files calls)
  | [], files => .nil files
  | c :: calls, files => .cons (memorySink_call files c) (memorySink_succeeds calls _)

/-! ### Single writes -/

theorem get?_remember (files : MemoryFiles) (path : Path) (text : String) (cs : List Component) :
    (remember files path text).get? cs =
      if cs = path.components then
        some ((((files.get? path.components).map Prod.fst).getD path), text)
      else files.get? cs := by
  unfold remember
  rw [Listing.get?_update]
  by_cases h : cs = path.components
  · rw [if_pos h, if_pos (by rw [h]; exact Std.ReflOrd.compare_self)]
    rcases files.get? path.components with _ | ⟨p, s⟩ <;> rfl
  · rw [if_neg h, if_neg (by simpa using h)]

theorem mem_keys_remember {files : MemoryFiles} {path : Path} {text : String}
    {cs : List Component} :
    cs ∈ (remember files path text).keys ↔ cs = path.components ∨ cs ∈ files.keys :=
  Listing.mem_keys_update

/-! ### Runs of writes -/

theorem rememberAll_append (files : MemoryFiles) (calls : List Call) (c : Call) :
    rememberAll files (calls ++ [c]) = remember (rememberAll files calls) c.1 c.2 := by
  unfold rememberAll
  rw [List.foldl_append]
  rfl

/-- If a path is spelled in one way by all calls, the last of the calls to it gave the
text of its entry. -/
theorem get?_rememberAll {path : Path} {calls : List Call}
    (h : ∀ c ∈ calls, c.1.components = path.components → c.1 = path) :
    (rememberAll ∅ calls).get? path.components =
      (calls.reverse.lookup path).map fun text => (path, text) := by
  induction calls using List.reverseRecOn with
  | nil => rfl
  | append_singleton calls c ih =>
    have ih := ih fun d hd => h d (List.mem_append_left _ hd)
    rw [rememberAll_append, get?_remember, List.reverse_append, List.reverse_singleton,
      List.singleton_append, List.lookup_cons]
    by_cases hc : path.components = c.1.components
    · have hp : c.1 = path := h c (by simp) hc.symm
      rw [if_pos hc, ← hc, ih, hp, beq_self_eq_true]
      cases calls.reverse.lookup path <;> rfl
    · have hb : (path == c.1) = false := by
        rw [beq_eq_false_iff_ne]
        intro e
        exact hc (by rw [e])
      rw [if_neg hc, ih, hb]

theorem mem_keys_rememberAll {cs : List Component} {calls : List Call} :
    cs ∈ (rememberAll ∅ calls).keys ↔ ∃ c ∈ calls, cs = c.1.components := by
  induction calls using List.reverseRecOn with
  | nil => simp [rememberAll, Listing.keys, EmptyCollection.emptyCollection, Listing.empty]
  | append_singleton calls c ih =>
    rw [rememberAll_append, mem_keys_remember, ih]
    constructor
    · rintro (h | ⟨d, hd, h⟩)
      · exact ⟨c, by simp, h⟩
      · exact ⟨d, by simp [hd], h⟩
    · rintro ⟨d, hd, h⟩
      rcases List.mem_append.mp hd with hd | hd
      · exact .inr ⟨d, hd, h⟩
      · rw [List.mem_singleton] at hd
        exact .inl (hd ▸ h)

/-! ### What a memory sink holds after writing -/

/-- Writing into an empty memory succeeds exactly by taking the calls of all entries. -/
theorem memory_of_writeFiles {files : GeneratedFiles} {paths : List Path}
    {memory : MemoryFiles} (h : (writeFiles memorySink files).run ∅ = (.ok paths, memory)) :
    ∃ calls, Calls files.entries calls ∧ memory = rememberAll ∅ calls := by
  cases hr : resolved files.entries with
  | error f => rw [writeFiles_of_error hr] at h; cases h
  | ok calls =>
    rw [writeFiles_of_resolved hr, writeAll_of_succeeds (memorySink_succeeds calls ∅)] at h
    cases h
    exact ⟨calls, resolved_eq_ok_iff.mp hr, rfl⟩

/-- There is one entry for each list of parts. -/
theorem size_rememberAll {files : GeneratedFiles} {calls : List Call}
    (h : Calls files.entries calls) :
    (rememberAll ∅ calls).size = (files.keys.map keyParts).toFinset.card := by
  rw [Listing.size_eq_card]
  have himage : (rememberAll ∅ calls).keys.toFinset =
      (files.keys.map keyParts).toFinset.image nameComponents := by
    ext cs
    rw [List.mem_toFinset, mem_keys_rememberAll, Finset.mem_image]
    constructor
    · rintro ⟨c, hc, rfl⟩
      obtain ⟨e, he, hp, -⟩ := h.exists_entry hc
      refine ⟨keyParts e.1, ?_, (components_outputPath hp).symm⟩
      rw [List.mem_toFinset, Listing.keys, List.map_map]
      exact List.mem_map_of_mem he
    · rintro ⟨parts, hparts, rfl⟩
      rw [List.mem_toFinset, Listing.keys, List.map_map] at hparts
      obtain ⟨e, he, rfl⟩ := List.mem_map.mp hparts
      obtain ⟨c, hc, hp, -⟩ := h.exists_call he
      exact ⟨c, hc, (components_outputPath hp).symm⟩
  rw [himage, Finset.card_image_of_injective _ fun _ _ => nameComponents_injective]

/-- The entry of a path holds the text of the greatest key that leads there. -/
theorem get?_of_greatest {files : GeneratedFiles} {calls : List Call}
    (h : Calls files.entries calls) {key text : String} {path : Path}
    (hm : (key, text) ∈ files.entries) (hp : outputPath key = .ok path)
    (hmax : ∀ k ∈ files.keys, outputPath k = .ok path → k ≤ key) :
    (rememberAll ∅ calls).get? path.components = some (path, text) := by
  have hspell : ∀ c ∈ calls, c.1.components = path.components → c.1 = path := by
    intro c hc e
    obtain ⟨_, -, hp', -⟩ := h.exists_entry hc
    exact eq_of_components_outputPath hp' hp e
  have hs : files.entries.Pairwise fun a b => a.1 < b.1 :=
    List.pairwise_map.mp files.increasing_keys
  rw [get?_rememberAll hspell,
    h.last_eq hs hm hp fun e he => hmax e.1 (List.mem_map_of_mem he)]
  rfl

/-- Every file of the listing has an entry of its own with its own text. -/
def OneEach (files : GeneratedFiles) (memory : MemoryFiles) : Prop :=
  memory.size = files.size ∧ ∀ key text path, (key, text) ∈ files.entries →
    outputPath key = .ok path → memory.get? path.components = some (path, text)

/-- No two keys have the same parts. -/
def DistinctParts (files : GeneratedFiles) : Prop :=
  ∀ k ∈ files.keys, ∀ k' ∈ files.keys, keyParts k = keyParts k' → k = k'

theorem oneEach_iff {files : GeneratedFiles} {calls : List Call}
    (h : Calls files.entries calls) :
    OneEach files (rememberAll ∅ calls) ↔ DistinctParts files := by
  have hsize : files.size = (files.keys.map keyParts).length := by
    rw [List.length_map, Listing.keys, List.length_map]
    rfl
  constructor
  · rintro ⟨hcard, -⟩
    rw [size_rememberAll h, hsize] at hcard
    have hnodup : (files.keys.map keyParts).Nodup :=
      Multiset.coe_nodup.mp (Multiset.toFinset_card_eq_card_iff_nodup.mp hcard)
    exact fun k hk k' hk' => List.inj_on_of_nodup_map hnodup hk hk'
  · intro hd
    refine ⟨?_, fun key text path hm hp => get?_of_greatest h hm hp fun k hk hpk => ?_⟩
    · rw [size_rememberAll h, hsize]
      exact List.toFinset_card_of_nodup (files.nodup_keys.map_on hd)
    · have hparts := (outputPath_eq_iff hpk hp).mp rfl
      have hkey := hd k hk key (List.mem_map_of_mem hm) hparts
      subst hkey
      exact String.le_refl _

/-- **The last of the keys that lead to one path wins.** After writing into an empty
memory there is one entry for each list of parts, and it holds the text of the
greatest key with these parts. So each file has an entry of its own exactly if no two
keys have the same parts. -/
theorem memory_keeps_last {files : GeneratedFiles} {paths : List Path} {memory : MemoryFiles}
    (h : (writeFiles memorySink files).run ∅ = (.ok paths, memory)) :
    memory.size = (files.keys.map keyParts).toFinset.card ∧
    (∀ key text path, (key, text) ∈ files.entries → outputPath key = .ok path →
      (∀ k ∈ files.keys, outputPath k = .ok path → k ≤ key) →
      memory.get? path.components = some (path, text)) ∧
    (OneEach files memory ↔ DistinctParts files) := by
  obtain ⟨calls, hc, rfl⟩ := memory_of_writeFiles h
  exact ⟨size_rememberAll hc, fun _ _ _ hm hp hmax => get?_of_greatest hc hm hp hmax,
    oneEach_iff hc⟩

/-- Two files whose keys differ in the number of slashes only. -/
def twinFiles : GeneratedFiles := Listing.ofList [("a/b", "one"), ("a//b", "two")]

/-- What is left of them. -/
def twinMemory : MemoryFiles := Listing.ofList [([.name "a", .name "b"], (⟨"a/b"⟩, "one"))]

theorem twinFiles_written :
    (writeFiles memorySink twinFiles).run ∅ = (.ok [⟨"a/b"⟩, ⟨"a/b"⟩], twinMemory) := rfl

theorem memory_keeps_last_twinFiles :
    (writeFiles memorySink twinFiles).run ∅ = (.ok [⟨"a/b"⟩, ⟨"a/b"⟩], twinMemory) ∧
    twinMemory.size = (twinFiles.keys.map keyParts).toFinset.card ∧
    twinMemory.get? (Path.components ⟨"a/b"⟩) = some (⟨"a/b"⟩, "one") ∧
    (OneEach twinFiles twinMemory ↔ DistinctParts twinFiles) := by
  obtain ⟨hsize, hlast, hone⟩ := memory_keeps_last twinFiles_written
  refine ⟨twinFiles_written, hsize, hlast "a/b" "one" ⟨"a/b"⟩ ?_ rfl ?_, hone⟩
  · exact List.mem_cons_of_mem _ List.mem_cons_self
  · have hkeys : ∀ k ∈ twinFiles.keys, k ≤ "a/b" := by decide +kernel
    exact fun k hk _ => hkeys k hk

/-- Writing may succeed without an entry for every file: of `a/b` and `a//b` only one is
left, although two paths are answered. -/
theorem double_slash_overwrites :
    ¬ ∀ (files : GeneratedFiles) (paths : List Path) (memory : MemoryFiles),
      (writeFiles memorySink files).run ∅ = (.ok paths, memory) → OneEach files memory := by
  intro h
  have hsize := (h twinFiles _ _ twinFiles_written).1
  exact absurd hsize (by decide +kernel)

end Output
end ModelStubs
