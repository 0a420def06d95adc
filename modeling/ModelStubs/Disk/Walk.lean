/-
# Walking a file tree

`FileTree.walk` visits what lies below a directory: the entries of a directory in
the order of their names, and each directory before the entry after it. Every entry
is looked at by its path from where the walk began, so the limits on the links and
on the length of a path hold for the whole way. Links are followed; an entry whose
path leads to nothing is passed over, and so is a link to a directory that the walk
is inside of. That is why the walk ends: on the way down every link leads to a
directory that the walk was not inside of before, and between two links the places
get longer.

Key definitions: `Disk.FileTree.children`, `Disk.FileTree.walk`,
`Disk.FileTree.filesBelow`.
Key theorems: `Disk.FileTree.mem_entries_of_mem_children`,
`Disk.FileTree.fresh_cons_lt`.
-/
import ModelStubs.Disk.Tree

namespace ModelStubs
namespace Disk
namespace FileTree

/-- The name and node of an entry that stands in the given directory. -/
def childOf (place : Names) (e : Names × Node) : Option (String × Node) :=
  match e.1.getLast? with
  | none => none
  | some c => if e.1 = place ++ [c] then some (c, e.2) else none

/-- What stands in a directory, in the order of the names. -/
def children (t : FileTree) (place : Names) : List (String × Node) :=
  (t.entries.filterMap (childOf place)).mergeSort fun a b => decide (a.1 ≤ b.1)

theorem mem_entries_of_mem_children {t : FileTree} {place : Names} {c : String} {n : Node}
    (h : (c, n) ∈ t.children place) : (place ++ [c], n) ∈ t.entries := by
  unfold children at h
  rw [List.mem_mergeSort, List.mem_filterMap] at h
  obtain ⟨⟨k, m⟩, he, hc⟩ := h
  unfold childOf at hc
  split at hc
  · cases hc
  · split at hc
    · next hk => cases hc; simp only at hk; rw [← hk]; exact he
    · cases hc

/-- The length of the longest place. -/
def depth (t : FileTree) : Nat := (t.entries.map fun e => e.1.length).foldr max 0

theorem le_foldr_max : ∀ {ns : List Nat} {n : Nat}, n ∈ ns → n ≤ ns.foldr max 0
  | m :: ns, n, h => by
    rw [List.foldr_cons]
    rcases List.mem_cons.mp h with rfl | h
    · exact Nat.le_max_left _ _
    · exact Nat.le_trans (le_foldr_max h) (Nat.le_max_right _ _)

theorem length_le_depth {t : FileTree} {e : Names × Node} (h : e ∈ t.entries) :
    e.1.length ≤ t.depth :=
  le_foldr_max (List.mem_map.mpr ⟨e, h, rfl⟩)

/-- How many places are not among the given ones. -/
def fresh (t : FileTree) (seen : List Names) : Nat :=
  ([] :: t.entries.map Prod.fst).countP fun p => !seen.contains p

theorem fresh_cons_le (t : FileTree) (seen : List Names) (p : Names) :
    t.fresh (p :: seen) ≤ t.fresh seen :=
  List.countP_mono_left fun q _ h => by
    simp only [List.contains_cons, Bool.not_or, Bool.and_eq_true] at h
    exact h.2

theorem countP_lt_of_mem {p q : Names → Bool} : ∀ {ns : List Names},
    (∀ n ∈ ns, p n = true → q n = true) → (∃ n ∈ ns, p n = false ∧ q n = true) →
    ns.countP p < ns.countP q
  | [], _, h => by obtain ⟨n, hn, _⟩ := h; cases hn
  | m :: ns, h, hx => by
    have hle : ns.countP p ≤ ns.countP q :=
      List.countP_mono_left fun n hn => h n (List.mem_cons_of_mem _ hn)
    obtain ⟨n, hn, hp, hq⟩ := hx
    rw [List.countP_cons, List.countP_cons]
    rcases List.mem_cons.mp hn with rfl | hn
    · simp only [hp, hq, if_true, Bool.false_eq_true, if_false]
      omega
    · have ih := countP_lt_of_mem (fun n hn => h n (List.mem_cons_of_mem _ hn)) ⟨n, hn, hp, hq⟩
      have hm := h m (by simp)
      by_cases hpm : p m = true
      · simp only [hpm, hm hpm, if_true]
        omega
      · simp only [hpm, if_false, Bool.false_eq_true]
        split <;> omega

theorem mem_places_of_get? {t : FileTree} {p : Names} {n : Node} (h : t.get? p = some n) :
    p ∈ [] :: t.entries.map Prod.fst := by
  cases p with
  | nil => simp
  | cons m ms =>
    have h : t.entries.lookup (m :: ms) = some n := h
    refine List.mem_cons_of_mem _ ?_
    revert h
    generalize t.entries = es
    induction es with
    | nil => intro h; cases h
    | cons e es ih =>
      intro h
      obtain ⟨k, v⟩ := e
      rw [List.lookup_cons] at h
      split at h
      · next hk => simp only [beq_iff_eq] at hk; simp [hk]
      · simp only [List.map_cons, List.mem_cons]; exact .inr (ih h)

/-- A place that was not among the given ones is one less to come. -/
theorem fresh_cons_lt {t : FileTree} {seen : List Names} {p : Names} {n : Node}
    (h : t.get? p = some n) (hp : p ∉ seen) : t.fresh (p :: seen) < t.fresh seen :=
  countP_lt_of_mem
    (fun q _ hq => by
      simp only [List.contains_cons, Bool.not_or, Bool.and_eq_true] at hq
      exact hq.2)
    ⟨p, mem_places_of_get? h, by simp, by simpa using hp⟩

/-- The files below a directory, by their names from where the walk began, which is
the path `start`. The walk is inside of the directories `inside`, this one among
them. -/
def walk (t : FileTree) (start : Path) (inside : List Names) (place shown : Names) :
    List Names :=
  (t.children place).attach.flatMap fun ⟨(c, n), _hc⟩ =>
    let path := start.below (shown ++ [c])
    match n with
    | .item (.file _) => if t.holds path then [shown ++ [c]] else []
    | .item .directory =>
      t.walk start ((place ++ [c]) :: inside) (place ++ [c]) (shown ++ [c])
    | .link _ =>
      match t.resolve path with
      | .error _ => []
      | .ok target =>
        match _hn : t.get? target with
        | some (.item (.file _)) => [shown ++ [c]]
        | some (.item .directory) =>
          if _hs : target ∈ inside then []
          else t.walk start (target :: inside) target (shown ++ [c])
        | _ => []
termination_by (t.fresh inside, t.depth - place.length)
decreasing_by
  · have hl := length_le_depth (mem_entries_of_mem_children _hc)
    simp only [List.length_append, List.length_cons, List.length_nil] at hl
    rcases Nat.lt_or_eq_of_le (t.fresh_cons_le inside (place ++ [c])) with h | h
    · exact Prod.Lex.left _ _ h
    · rw [h]
      refine Prod.Lex.right _ ?_
      simp only [List.length_append, List.length_cons, List.length_nil]
      omega
  · exact Prod.Lex.left _ _ (fresh_cons_lt _hn _hs)

/-- The files that a path leads to: the file itself, under no name, or those below a
directory. -/
def filesBelow (t : FileTree) (p : Path) : List Names :=
  match t.resolve p with
  | .error _ => []
  | .ok place =>
    match t.get? place with
    | some (.item (.file _)) => [[]]
    | some (.item .directory) => t.walk p [place] place []
    | _ => []

end FileTree
end Disk
end ModelStubs
