/-
# What stands in a listing

The entries of a listing are exactly what `Listing.get?` finds, so a listing is a
finite map. Putting pairs in turn leaves under each key the last value that was put
there, and there are as many entries as different keys.

Key theorems: `Listing.get?_eq_some_iff`, `Listing.ext_get?`, `Listing.get?_insertAll`,
`Listing.get?_ofList_of_nodup`, `Listing.ofList_append`, `Listing.mem_keys_update`,
`Listing.size_eq_card`, `Listing.size_ofList`.
-/
import Mathlib.Data.Finset.Card
import Mathlib.Data.List.Nodup
import ModelStubs.Listing

namespace ModelStubs
namespace Listing

variable {κ ν : Type} [Ord κ]

/-! ### Entries -/

/-- What is found is an entry. -/
theorem mem_of_lookup : ∀ {es : List (κ × ν)} {k : κ} {v : ν}, lookup k es = some v →
    ∃ k', (k', v) ∈ es ∧ compare k k' = .eq
  | [], k, v, h => by cases h
  | (k', w) :: es, k, v, h => by
    unfold lookup at h
    split at h
    · next hk => cases h; exact ⟨k', by simp, hk⟩
    · obtain ⟨j, hj, hkj⟩ := mem_of_lookup h
      exact ⟨j, List.mem_cons_of_mem _ hj, hkj⟩

section

variable [Std.LawfulEqOrd κ]

/-- No key stands twice. -/
theorem nodup_keys (l : Listing κ ν) : l.keys.Nodup := by
  rw [keys, List.Nodup, List.pairwise_map]
  refine l.sorted.imp fun h e => ?_
  rw [e, Std.ReflOrd.compare_self] at h
  cases h

/-- A listing has as many entries as different keys. -/
theorem size_eq_card [DecidableEq κ] (l : Listing κ ν) : l.size = l.keys.toFinset.card := by
  rw [List.toFinset_card_of_nodup l.nodup_keys, keys, List.length_map]
  rfl

end

variable [Std.TransOrd κ]

/-- An entry is found. -/
theorem lookup_of_mem : ∀ {es : List (κ × ν)},
    es.Pairwise (fun a b => compare a.1 b.1 = .lt) → ∀ {k : κ} {v : ν}, (k, v) ∈ es →
    lookup k es = some v
  | [], _, _, _, hm => by cases hm
  | (k', w) :: es, h, k, v, hm => by
    obtain ⟨h1, h2⟩ := List.pairwise_cons.mp h
    unfold lookup
    rcases List.mem_cons.mp hm with hm | hm
    · cases hm
      rw [if_pos Std.ReflOrd.compare_self]
    · have hk : compare k' k = .lt := h1 (k, v) hm
      rw [Std.OrientedOrd.eq_swap, hk, if_neg (by decide)]
      exact lookup_of_mem h2 hm

variable [Std.LawfulEqOrd κ]

/-- The entries are what is found. -/
theorem get?_eq_some_iff {l : Listing κ ν} {k : κ} {v : ν} :
    l.get? k = some v ↔ (k, v) ∈ l.entries := by
  constructor
  · intro h
    obtain ⟨k', hm, hk⟩ := mem_of_lookup h
    rw [Std.compare_eq_iff_eq] at hk
    exact hk ▸ hm
  · exact lookup_of_mem l.sorted

theorem mem_keys_iff {l : Listing κ ν} {k : κ} : k ∈ l.keys ↔ ∃ v, l.get? k = some v := by
  rw [keys, List.mem_map]
  constructor
  · rintro ⟨⟨k', v⟩, hm, rfl⟩
    exact ⟨v, get?_eq_some_iff.mpr hm⟩
  · rintro ⟨v, h⟩
    exact ⟨(k, v), get?_eq_some_iff.mp h, rfl⟩

/-- Listings in which the same is found are the same. -/
theorem ext_get? {l l' : Listing κ ν} (h : ∀ k, l.get? k = l'.get? k) : l = l' := by
  have hne : ∀ {a b : κ × ν}, compare a.1 b.1 = .lt → a ≠ b := by
    rintro a b hab rfl
    rw [Std.ReflOrd.compare_self] at hab
    cases hab
  have hmem : ∀ e : κ × ν, e ∈ l.entries ↔ e ∈ l'.entries := by
    rintro ⟨k, v⟩
    rw [← get?_eq_some_iff, ← get?_eq_some_iff, h k]
  have hperm : l.entries.Perm l'.entries :=
    (List.perm_ext_iff_of_nodup (l.sorted.imp hne) (l'.sorted.imp hne)).mpr hmem
  have hantisymm : ∀ a b : κ × ν, a ∈ l.entries → b ∈ l'.entries → compare a.1 b.1 = .lt →
      compare b.1 a.1 = .lt → a = b :=
    fun a b _ _ hab hba => absurd hba (Std.OrientedCmp.not_lt_of_lt hab)
  have hentries : l.entries = l'.entries := hperm.eq_of_pairwise hantisymm l.sorted l'.sorted
  cases l
  cases l'
  cases hentries
  rfl

/-! ### Putting values -/

theorem mem_keys_update {l : Listing κ ν} {k k' : κ} {f : Option ν → ν} :
    k' ∈ (l.update k f).keys ↔ k' = k ∨ k' ∈ l.keys := by
  rw [mem_keys_iff, mem_keys_iff, get?_update]
  by_cases h : k' = k
  · simp [h]
  · simp [h]

/-- Under each key stands the last value that was put there, or what stood there
before. -/
theorem get?_insertAll [DecidableEq κ] (k : κ) : ∀ (es : List (κ × ν)) (l : Listing κ ν),
    (l.insertAll es).get? k = (es.reverse.lookup k).or (l.get? k)
  | [], l => rfl
  | (k', v) :: es, l => by
    have ih := get?_insertAll k es (l.insert k' v)
    rw [get?_insert] at ih
    show ((l.insert k' v).insertAll es).get? k = _
    rw [ih, List.reverse_cons, List.lookup_append, Option.or_assoc]
    congr 1
    by_cases h : k = k'
    · rw [if_pos h, h, List.lookup_cons_self]
      rfl
    · have hb : (k == k') = false := by simpa using h
      rw [if_neg h, List.lookup_cons, hb]
      rfl

theorem get?_ofList [DecidableEq κ] (es : List (κ × ν)) (k : κ) :
    (ofList es).get? k = es.reverse.lookup k := by
  rw [ofList, get?_insertAll]
  exact Option.or_none

theorem mem_keys_ofList [DecidableEq κ] {es : List (κ × ν)} {k : κ} :
    k ∈ (ofList es).keys ↔ k ∈ es.map Prod.fst := by
  rw [mem_keys_iff, get?_ofList, ← Option.isSome_iff_exists, List.lookup_isSome_iff]
  simp only [List.mem_reverse, beq_iff_eq, List.mem_map]
  exact ⟨fun ⟨e, he, hk⟩ => ⟨e, he, hk.symm⟩, fun ⟨e, he, hk⟩ => ⟨e, he, hk.symm⟩⟩

/-- Of pairs with different keys none is lost. -/
theorem get?_ofList_of_nodup [DecidableEq κ] {es : List (κ × ν)} (h : (es.map Prod.fst).Nodup)
    {k : κ} {v : ν} : (ofList es).get? k = some v ↔ (k, v) ∈ es := by
  rw [get?_ofList, List.lookup_eq_some_iff]
  constructor
  · rintro ⟨before, after, hes, -⟩
    rw [← List.mem_reverse, hes]
    simp
  · intro hm
    obtain ⟨before, after, hes⟩ := List.append_of_mem (List.mem_reverse.mpr hm)
    refine ⟨before, after, hes, fun e he => ?_⟩
    have hnodup : (es.reverse.map Prod.fst).Nodup := by
      rw [List.map_reverse]
      exact List.nodup_reverse.mpr h
    rw [hes, List.map_append, List.map_cons, List.nodup_append] at hnodup
    have hne := hnodup.2.2 e.1 (List.mem_map_of_mem he) k (by simp)
    simpa using Ne.symm hne

/-- The listing of pairs has as many entries as the pairs have different keys. -/
theorem size_ofList [DecidableEq κ] (es : List (κ × ν)) :
    (ofList es).size = (es.map Prod.fst).toFinset.card := by
  rw [size_eq_card]
  congr 1
  ext k
  rw [List.mem_toFinset, List.mem_toFinset, mem_keys_ofList]

/-- The last pair of a key is the last of those that have the key. -/
theorem lookup_reverse [DecidableEq κ] (k : κ) : ∀ es : List (κ × ν),
    es.reverse.lookup k = ((es.filter fun e => e.1 == k).getLast?).map Prod.snd
  | [] => rfl
  | (k', v) :: es => by
    rw [List.reverse_cons, List.lookup_append, lookup_reverse k es]
    by_cases h : k' = k
    · rw [List.filter_cons_of_pos (by simpa using h), List.getLast?_cons, h, List.lookup_cons_self]
      cases (es.filter fun e => e.1 == k).getLast? with
      | none => rfl
      | some e => rfl
    · have hb : (k == k') = false := by simpa using Ne.symm h
      rw [List.filter_cons_of_neg (by simpa using h), List.lookup_cons, hb, List.lookup_nil,
        Option.or_none]

/-- A listing is the listing of its entries. -/
theorem ofList_entries [DecidableEq κ] (l : Listing κ ν) : ofList l.entries = l := by
  refine ext_get? fun k => Option.ext fun v => ?_
  rw [get?_ofList_of_nodup l.nodup_keys, get?_eq_some_iff]

/-- Putting the entries of a listing leaves under its keys what it has there. -/
theorem get?_insertAll_entries [DecidableEq κ] (l m : Listing κ ν) (k : κ) :
    (l.insertAll m.entries).get? k = (m.get? k).or (l.get? k) := by
  rw [get?_insertAll, ← get?_ofList, ofList_entries]

/-- The listing of more pairs is overridden by that of the pairs that were added. -/
theorem ofList_append [DecidableEq κ] (es fs : List (κ × ν)) :
    ofList (es ++ fs) = (ofList es).insertAll (ofList fs).entries := by
  refine ext_get? fun k => ?_
  rw [get?_insertAll_entries, get?_ofList, get?_ofList, get?_ofList, List.reverse_append,
    List.lookup_append]

/-! ### Keys that are strings -/

/-- Strings are compared by their characters, which is the order of their bytes. -/
theorem compare_eq_lt_iff {a b : String} : compare a b = .lt ↔ a < b :=
  compareOfLessAndEq_eq_lt

/-- String keys increase. -/
theorem increasing_keys (l : Listing String ν) : l.keys.Pairwise (· < ·) := by
  rw [keys, List.pairwise_map]
  exact l.sorted.imp fun h => compare_eq_lt_iff.mp h

end Listing
end ModelStubs
