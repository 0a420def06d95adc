/-
# Listings

A listing holds values under keys, one per key, in the order of the keys. Entries
are changed by `update`, which looks at what stands under the key; an entry that is
there keeps its place and its key.

Key definitions: `Listing`, `Listing.update`, `Listing.insert`, `Listing.get?`.
Key theorems: `Listing.get?_update`, `Listing.get?_insert`.
-/
namespace ModelStubs

/-- Values under keys, in strictly increasing order of the keys. -/
structure Listing (κ ν : Type) [Ord κ] where
  entries : List (κ × ν)
  sorted : entries.Pairwise fun a b => compare a.1 b.1 = .lt

namespace Listing

variable {κ ν : Type} [Ord κ]

/-- The listing without entries. -/
def empty : Listing κ ν := ⟨[], .nil⟩

instance : Inhabited (Listing κ ν) := ⟨empty⟩

instance : EmptyCollection (Listing κ ν) := ⟨empty⟩

/-- The keys in order. -/
def keys (l : Listing κ ν) : List κ := l.entries.map Prod.fst

/-- The number of entries. -/
def size (l : Listing κ ν) : Nat := l.entries.length

/-- The value under a key in a list of entries. -/
def lookup (k : κ) : List (κ × ν) → Option ν
  | [] => none
  | (k', v) :: es => if compare k k' = .eq then some v else lookup k es

/-- The value under a key. -/
def get? (l : Listing κ ν) (k : κ) : Option ν := lookup k l.entries

/-- The entries with the value under the key changed, or with a new entry at its
place. -/
def updated (k : κ) (f : Option ν → ν) : List (κ × ν) → List (κ × ν)
  | [] => [(k, f none)]
  | (k', v) :: es =>
    match compare k k' with
    | .lt => (k, f none) :: (k', v) :: es
    | .eq => (k', f (some v)) :: es
    | .gt => (k', v) :: updated k f es

/-- An updated list has the old keys and the new one. -/
theorem mem_updated {k : κ} {f : Option ν → ν} : ∀ {es : List (κ × ν)} {e : κ × ν},
    e ∈ updated k f es → e.1 = k ∨ ∃ v, (e.1, v) ∈ es
  | [], e, h => by simp only [updated, List.mem_singleton] at h; exact .inl (by rw [h])
  | (k', v) :: es, e, h => by
    simp only [updated] at h
    split at h
    · rcases List.mem_cons.mp h with rfl | h
      · exact .inl rfl
      · exact .inr ⟨e.2, h⟩
    · rcases List.mem_cons.mp h with rfl | h
      · exact .inr ⟨v, by simp⟩
      · exact .inr ⟨e.2, List.mem_cons_of_mem _ h⟩
    · rcases List.mem_cons.mp h with rfl | h
      · exact .inr ⟨v, by simp⟩
      · rcases mem_updated h with h | ⟨w, h⟩
        · exact .inl h
        · exact .inr ⟨w, List.mem_cons_of_mem _ h⟩

/-- Updating keeps the order. -/
theorem sorted_updated [Std.TransOrd κ] {k : κ} {f : Option ν → ν} : ∀ {es : List (κ × ν)},
    es.Pairwise (fun a b => compare a.1 b.1 = .lt) →
    (updated k f es).Pairwise fun a b => compare a.1 b.1 = .lt
  | [], _ => by simp [updated]
  | (k', v) :: es, h => by
    obtain ⟨h1, h2⟩ := List.pairwise_cons.mp h
    simp only [updated]
    split
    · next hk =>
      refine List.pairwise_cons.mpr ⟨fun e he => ?_, h⟩
      rcases List.mem_cons.mp he with rfl | he
      · exact hk
      · exact Std.TransCmp.lt_trans hk (h1 e he)
    · exact List.pairwise_cons.mpr ⟨fun e he => h1 e he, h2⟩
    · next hk =>
      refine List.pairwise_cons.mpr ⟨fun e he => ?_, sorted_updated h2⟩
      rcases mem_updated he with he | ⟨w, he⟩
      · show compare k' e.1 = .lt
        rw [he]
        exact Std.OrientedCmp.lt_of_gt hk
      · exact h1 (e.1, w) he

/-- Changes the value under a key, or puts a value there. -/
def update [Std.TransOrd κ] (l : Listing κ ν) (k : κ) (f : Option ν → ν) : Listing κ ν :=
  ⟨updated k f l.entries, sorted_updated l.sorted⟩

/-- Puts a value under a key, in place of what stands there. -/
def insert [Std.TransOrd κ] (l : Listing κ ν) (k : κ) (v : ν) : Listing κ ν :=
  l.update k fun _ => v

/-- Puts each pair in turn, so that the last value under a key stays. -/
def insertAll [Std.TransOrd κ] (l : Listing κ ν) (es : List (κ × ν)) : Listing κ ν :=
  es.foldl (fun l e => l.insert e.1 e.2) l

/-- The listing of the given pairs; the last value under a key stays. -/
def ofList [Std.TransOrd κ] (es : List (κ × ν)) : Listing κ ν := empty.insertAll es

theorem lookup_eq_none_of_lt [Std.TransOrd κ] {k : κ} : ∀ {es : List (κ × ν)},
    (∀ e ∈ es, compare k e.1 = .lt) → lookup k es = none
  | [], _ => rfl
  | (k', v) :: es, h => by
    have hk : compare k k' = .lt := h (k', v) (by simp)
    simp only [lookup, hk]
    exact lookup_eq_none_of_lt fun e he => h e (by simp [he])

theorem lookup_updated [Std.TransOrd κ] {k k' : κ} {f : Option ν → ν} :
    ∀ {es : List (κ × ν)}, es.Pairwise (fun a b => compare a.1 b.1 = .lt) →
    lookup k' (updated k f es) =
      if compare k' k = .eq then some (f (lookup k es)) else lookup k' es
  | [], _ => by simp [updated, lookup]
  | (j, v) :: es, h => by
    obtain ⟨h1, h2⟩ := List.pairwise_cons.mp h
    simp only [updated]
    split
    · next hk =>
      have hn : lookup k ((j, v) :: es) = none := by
        refine lookup_eq_none_of_lt fun e he => ?_
        rcases List.mem_cons.mp he with rfl | he
        · exact hk
        · exact Std.TransCmp.lt_trans hk (h1 e he)
      rw [hn, lookup]
    · next hk =>
      simp only [lookup, hk, if_true]
      rw [Std.TransCmp.congr_right hk]
      split <;> rfl
    · next hk =>
      simp only [lookup]
      rw [lookup_updated h2]
      have hj : ¬ compare k j = .eq := by simp [hk]
      simp only [hj, if_false]
      by_cases he : compare k' k = .eq
      · have : ¬ compare k' j = .eq := by
          rw [Std.TransCmp.congr_left he]
          exact hj
        simp [this, he]
      · simp [he]

/-- What stands under a key after an update. -/
theorem get?_update [Std.TransOrd κ] (l : Listing κ ν) (k k' : κ) (f : Option ν → ν) :
    (l.update k f).get? k' = if compare k' k = .eq then some (f (l.get? k)) else l.get? k' :=
  lookup_updated l.sorted

/-- What stands under a key after a value was put. -/
theorem get?_insert [Std.TransOrd κ] [Std.LawfulEqOrd κ] [DecidableEq κ] (l : Listing κ ν)
    (k k' : κ) (v : ν) :
    (l.insert k v).get? k' = if k' = k then some v else l.get? k' := by
  rw [insert, get?_update]
  simp only [Std.compare_eq_iff_eq]

end Listing
end ModelStubs
