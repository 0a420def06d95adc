/-
# Which text counts

When several lots of files are written one after the other, a path holds in the end
what the last lot that has a key for it says, and within this lot the greatest key
that leads to it (`Output.LastText`). Writing a lot several times in a row changes
nothing about that.

Key definitions: `Output.callsOf`, `Output.Accepted`, `Output.LastText`.
Key theorems: `Output.calls_callsOf`, `Output.lookup_of_lastText`,
`Output.exists_lastText`.
-/
import Mathlib.Data.List.Induction
import ModelStubs.Proofs.Keys
import ModelStubs.Proofs.Sinks

namespace ModelStubs
namespace Output

open Disk (Path)

/-- The calls that write files whose keys are accepted. -/
def callsOf (files : GeneratedFiles) : List Call :=
  files.entries.map fun e => (pathOf (keyParts e.1), e.2)

/-- No key of the files is refused. -/
def Accepted (files : GeneratedFiles) : Prop :=
  ∀ key ∈ files.keys, ∃ path, outputPath key = .ok path

/-- The files have a key that leads to the path. -/
def Produces (files : GeneratedFiles) (path : Path) : Prop :=
  ∃ key ∈ files.keys, outputPath key = .ok path

/-- Of the lots that produce the path, the last one says this text for the greatest of
its keys that lead to the path. -/
def LastText (lots : List GeneratedFiles) (path : Path) (text : String) : Prop :=
  ∃ before files after key, lots = before ++ files :: after ∧
    (key, text) ∈ files.entries ∧ outputPath key = .ok path ∧
    (∀ k ∈ files.keys, outputPath k = .ok path → k ≤ key) ∧
    ∀ later ∈ after, ¬ Produces later path

/-- The calls that write lots, each of them `n` times in a row. -/
def callsOfAll (n : Nat) (lots : List GeneratedFiles) : List Call :=
  lots.flatMap fun files => (List.replicate n (callsOf files)).flatten

theorem calls_callsOf {files : GeneratedFiles} (h : Accepted files) :
    Calls files.entries (callsOf files) := by
  unfold Calls callsOf
  rw [List.forall₂_map_right_iff, List.forall₂_same]
  intro e he
  obtain ⟨path, hp⟩ := h e.1 (List.mem_map_of_mem he)
  rw [hp, (outputPath_eq_ok_iff.mp hp).2]
  exact ⟨rfl, rfl⟩

theorem length_callsOf (files : GeneratedFiles) : (callsOf files).length = files.size := by
  rw [callsOf, List.length_map]
  rfl

theorem mem_callsOfAll {n : Nat} {lots : List GeneratedFiles} {c : Call}
    (h : c ∈ callsOfAll n lots) : ∃ files ∈ lots, c ∈ callsOf files := by
  obtain ⟨files, hf, hc⟩ := List.mem_flatMap.mp h
  obtain ⟨calls, hr, hc⟩ := List.mem_flatten.mp hc
  rw [List.eq_of_mem_replicate hr] at hc
  exact ⟨files, hf, hc⟩

/-- Files make a call to a path exactly if they produce it. -/
theorem exists_call_iff {files : GeneratedFiles} (h : Accepted files) (path : Path) :
    (∃ c ∈ callsOf files, c.1 = path) ↔ Produces files path := by
  constructor
  · rintro ⟨c, hc, rfl⟩
    obtain ⟨e, he, hp, -⟩ := (calls_callsOf h).exists_entry hc
    exact ⟨e.1, List.mem_map_of_mem he, hp⟩
  · rintro ⟨key, hk, hp⟩
    obtain ⟨e, he, rfl⟩ := List.mem_map.mp hk
    obtain ⟨c, hc, hp', -⟩ := (calls_callsOf h).exists_call he
    rw [hp] at hp'
    cases hp'
    exact ⟨c, hc, rfl⟩

/-- The last of all calls to a path has the text that counts. -/
theorem lookup_of_lastText {n : Nat} {lots : List GeneratedFiles} {path : Path} {text : String}
    (hall : ∀ files ∈ lots, Accepted files) (h : LastText lots path text) :
    (callsOfAll (n + 1) lots).reverse.lookup path = some text := by
  obtain ⟨before, files, after, key, rfl, hm, hp, hmax, hafter⟩ := h
  have hfiles : Accepted files := hall files (by simp)
  have hnone : (callsOfAll (n + 1) after).reverse.lookup path = none := by
    rw [List.lookup_eq_none_iff]
    intro c hc
    obtain ⟨later, hl, hc⟩ := mem_callsOfAll (List.mem_reverse.mp hc)
    rw [bne_iff_ne]
    intro e
    have hlater : Accepted later := hall later (by simp [hl])
    exact hafter later hl ((exists_call_iff hlater path).mp ⟨c, hc, e.symm⟩)
  have hlast : (callsOf files).reverse.lookup path = some text :=
    (calls_callsOf hfiles).last_eq (List.pairwise_map.mp files.increasing_keys) hm hp
      fun e he => hmax e.1 (List.mem_map_of_mem he)
  have hsplit : callsOfAll (n + 1) (before ++ files :: after) =
      callsOfAll (n + 1) before ++ ((List.replicate n (callsOf files)).flatten ++
        callsOf files ++ callsOfAll (n + 1) after) := by
    unfold callsOfAll
    rw [List.flatMap_append, List.flatMap_cons, List.replicate_succ', List.flatten_concat]
  rw [hsplit, List.reverse_append, List.reverse_append, List.reverse_append, List.lookup_append,
    List.lookup_append, List.lookup_append, hnone, hlast]
  rfl

/-- Among keys in increasing order that lead somewhere there is a greatest. -/
theorem exists_greatest {files : GeneratedFiles} {path : Path} (h : Produces files path) :
    ∃ key text, (key, text) ∈ files.entries ∧ outputPath key = .ok path ∧
      ∀ k ∈ files.keys, outputPath k = .ok path → k ≤ key := by
  obtain ⟨key, hk, hp⟩ := h
  have hs := files.increasing_keys
  unfold Listing.keys at *
  revert hk hs
  generalize files.entries = es
  induction es using List.reverseRecOn with
  | nil => intro hk; cases hk
  | append_singleton es e ih =>
    intro hk hs
    rw [List.map_append, List.pairwise_append] at hs
    obtain ⟨hs, -, hlast⟩ := hs
    by_cases he : outputPath e.1 = .ok path
    · refine ⟨e.1, e.2, by simp, he, fun k hk' _ => ?_⟩
      rw [List.map_append] at hk'
      rcases List.mem_append.mp hk' with hk' | hk'
      · exact Std.le_of_lt (hlast k hk' e.1 (by simp))
      · rw [List.map_singleton, List.mem_singleton] at hk'
        subst hk'
        exact String.le_refl _
    · have hmem : ∀ k ∈ (es ++ [e]).map Prod.fst, outputPath k = .ok path →
          k ∈ es.map Prod.fst := by
        intro k hk' hpk
        rw [List.map_append] at hk'
        rcases List.mem_append.mp hk' with hk' | hk'
        · exact hk'
        · rw [List.map_singleton, List.mem_singleton] at hk'
          rw [hk'] at hpk
          exact absurd hpk he
      obtain ⟨key, text, hm, hpk, hmax⟩ := ih (hmem key hk hp) hs
      exact ⟨key, text, by simp [hm], hpk, fun k hk' hpk' => hmax k (hmem k hk' hpk') hpk'⟩

/-- For every path that is produced there is a text that counts. -/
theorem exists_lastText {path : Path} : ∀ {lots : List GeneratedFiles},
    (∃ files ∈ lots, Produces files path) → ∃ text, LastText lots path text
  | [], h => by
    obtain ⟨files, hf, -⟩ := h
    cases hf
  | files :: lots, h => by
    by_cases hl : ∃ later ∈ lots, Produces later path
    · obtain ⟨text, before, fs, after, key, rfl, hlast⟩ := exists_lastText hl
      exact ⟨text, files :: before, fs, after, key, rfl, hlast⟩
    · obtain ⟨fs, hf, hp⟩ := h
      rcases List.mem_cons.mp hf with rfl | hf
      · obtain ⟨key, text, hm, hpk, hmax⟩ := exists_greatest hp
        refine ⟨text, [], fs, lots, key, rfl, hm, hpk, hmax, fun later hm' hp' => ?_⟩
        exact hl ⟨later, hm', hp'⟩
      · exact absurd ⟨fs, hf, hp⟩ hl

end Output
end ModelStubs
