/-
# Walks through trees with links

What an entry of a directory gives a walk is one of three things: nothing, a file, or a
directory to go through (`Disk.FileTree.leadOf`). A walk is the files under the entries in
their order (`Disk.FileTree.walk_eq_under`), whether there are links or not, so it finds
the files in the order of their names (`Disk.FileTree.pairwise_walk`). The walk is also a
loop over the entries still to be visited, which ends on every tree, one with links that
lead in a circle included (`Disk.FileTree.search_ends`).

The path by which a walk shows a directory leads there or nowhere
(`Disk.FileTree.Shows`). So what a walk finds are files, and a link that leads nowhere
makes no difference: on a tree without it, or with its entries in another order, the same
is found (`Disk.FileTree.Trims.filesBelow_eq`).

Key definitions: `Disk.FileTree.Lead`, `Disk.FileTree.leadOf`, `Disk.FileTree.Search`,
`Disk.FileTree.Shows`, `Disk.FileTree.Broken`, `Disk.FileTree.Trims`.
Key theorems: `Disk.FileTree.walk_eq_under`, `Disk.FileTree.pairwise_walk`,
`Disk.FileTree.search_ends`, `Disk.FileTree.status_of_mem_filesBelow`,
`Disk.FileTree.Trims.filesBelow_eq`.
-/
import Mathlib.Logic.Function.Iterate
import ModelStubs.Proofs.Walks

namespace ModelStubs
namespace Disk
namespace FileTree

/-! ### What an entry leads to -/

/-- What an entry gives a walk. -/
inductive Lead
  | nothing
  | file
  | directory (place : Names)
deriving DecidableEq, Repr

/-- What a link gives a walk that is inside of the given directories. -/
def linkLead (t : FileTree) (inside : List Names) (path : Path) : Lead :=
  match t.resolve path with
  | .error _ => .nothing
  | .ok target =>
    match t.get? target with
    | some (.item (.file _)) => .file
    | some (.item .directory) => if inside.contains target then .nothing else .directory target
    | _ => .nothing

/-- What an entry of a directory gives a walk. -/
def leadOf (t : FileTree) (start : Path) (inside : List Names) (place shown : Names)
    (x : String × Node) : Lead :=
  match x.2 with
  | .item (.file _) => if t.holds (start.below (shown ++ [x.1])) then .file else .nothing
  | .item .directory => .directory (place ++ [x.1])
  | .link _ => t.linkLead inside (start.below (shown ++ [x.1]))

/-- The files that a walk finds under an entry. -/
def under (t : FileTree) (start : Path) (inside : List Names) (place shown : Names)
    (x : String × Node) : List Names :=
  match t.leadOf start inside place shown x with
  | .nothing => []
  | .file => [shown ++ [x.1]]
  | .directory p => t.walk start (p :: inside) p (shown ++ [x.1])

/-- A walk finds what is under the entries of the directory. -/
theorem walk_eq_under (t : FileTree) (start : Path) (inside : List Names) (place shown : Names) :
    t.walk start inside place shown =
      (t.children place).flatMap (t.under start inside place shown) := by
  rw [walk]
  refine (List.flatMap_subtype fun x _ => ?_).trans (by rw [List.unattach_attach])
  obtain ⟨c, n⟩ := x
  cases n with
  | item i =>
    cases i with
    | file content =>
      by_cases h : t.holds (start.below (shown ++ [c])) = true
      · simp [under, leadOf, h]
      · simp [under, leadOf, h]
    | directory => rfl
  | link target =>
    simp only [under, leadOf, linkLead]
    cases t.resolve (start.below (shown ++ [c])) with
    | error e => rfl
    | ok place' =>
      simp only
      rcases t.get? place' with - | (- | -) | - <;> simp only [List.contains_iff_mem]
      split <;> rfl

/-- What a link to a place that is there gives. -/
theorem linkLead_of_resolve {t : FileTree} {inside : List Names} {path : Path} {target : Names}
    (h : t.resolve path = .ok target) : t.linkLead inside path =
      match t.get? target with
      | some (.item (.file _)) => .file
      | some (.item .directory) => if inside.contains target then .nothing else .directory target
      | _ => .nothing := by
  unfold linkLead
  rw [h]

/-- A path that leads nowhere gives nothing. -/
theorem linkLead_of_not_resolve {t : FileTree} {inside : List Names} {path : Path}
    (h : ∀ target, t.resolve path ≠ .ok target) : t.linkLead inside path = .nothing := by
  unfold linkLead
  cases hr : t.resolve path with
  | error e => rfl
  | ok target => exact absurd hr (h target)

theorem status_of_linkLead {t : FileTree} {inside : List Names} {path : Path}
    (h : t.linkLead inside path = .file) : ∃ c, t.status path = .ok (.file c) := by
  unfold linkLead at h
  split at h
  · cases h
  · next target hr =>
    split at h
    · next c hn => exact ⟨c, status_eq_ok_iff.mpr ⟨target, hr, hn⟩⟩
    · split at h <;> cases h
    · cases h

theorem resolve_of_linkLead {t : FileTree} {inside : List Names} {path : Path} {p : Names}
    (h : t.linkLead inside path = .directory p) :
    t.resolve path = .ok p ∧ t.get? p = some (.item .directory) ∧ p ∉ inside := by
  unfold linkLead at h
  split at h
  · cases h
  · next target hr =>
    split at h
    · cases h
    · next hn =>
      split at h
      · cases h
      · next hfresh =>
        cases h
        exact ⟨hr, hn, mt List.contains_iff_mem.mpr hfresh⟩
    · cases h

/-- To prove something of every walk, prove it of a walk from what it does below. -/
theorem walk_induction (t : FileTree) (start : Path)
    {motive : List Names → Names → Names → Prop}
    (h : ∀ inside place shown, (∀ x ∈ t.children place, ∀ p,
      t.leadOf start inside place shown x = .directory p →
        motive (p :: inside) p (shown ++ [x.1])) → motive inside place shown)
    (inside : List Names) (place shown : Names) : motive inside place shown := by
  induction inside, place, shown using walk.induct (t := t) with
  | case1 inside place shown ihd ihl =>
    refine h inside place shown fun x hx p hlead => ?_
    obtain ⟨c, n⟩ := x
    cases n with
    | item i =>
      cases i with
      | file content =>
        simp only [leadOf] at hlead
        split at hlead <;> cases hlead
      | directory =>
        cases hlead
        exact ihd c hx
    | link target =>
      obtain ⟨-, hd, hfresh⟩ := resolve_of_linkLead hlead
      exact ihl c p hd hfresh

/-! ### The order of a walk -/

theorem flatMap_filter {α β : Type} (p : α → Bool) (f : α → List β) : ∀ xs : List α,
    (xs.filter p).flatMap f = xs.flatMap fun x => if p x then f x else []
  | [] => rfl
  | x :: xs => by
    by_cases hx : p x = true
    · simp [hx, flatMap_filter p f xs]
    · simp [hx, flatMap_filter p f xs]

/-- What a walk finds is shown below the directory. -/
theorem shown_of_mem_walk {t : FileTree} {start : Path} {inside : List Names}
    {place shown names : Names} (h : names ∈ t.walk start inside place shown) :
    ∃ rest, names = shown ++ rest := by
  induction inside, place, shown using walk_induction t start with
  | h inside place shown ih =>
    rw [walk_eq_under, List.mem_flatMap] at h
    obtain ⟨x, hx, h⟩ := h
    unfold under at h
    split at h
    · cases h
    · exact ⟨[x.1], List.mem_singleton.mp h⟩
    · next p hlead =>
      obtain ⟨rest, rfl⟩ := ih x hx p hlead h
      exact ⟨x.1 :: rest, by simp⟩

/-- What a walk finds under an entry is shown under its name. -/
theorem shown_of_mem_under {t : FileTree} {start : Path} {inside : List Names}
    {place shown names : Names} {x : String × Node}
    (h : names ∈ t.under start inside place shown x) : ∃ rest, names = shown ++ x.1 :: rest := by
  unfold under at h
  split at h
  · cases h
  · exact ⟨[], List.mem_singleton.mp h⟩
  · obtain ⟨rest, rfl⟩ := shown_of_mem_walk h
    exact ⟨rest, by simp⟩

/-- The entries of a directory are listed in the order of their names. -/
theorem pairwise_children {t : FileTree} (hp : t.Proper) (place : Names) :
    (t.children place).Pairwise fun x y => x.1 < y.1 := by
  have htrans : ∀ a b d : String × Node, decide (a.1 ≤ b.1) = true → decide (b.1 ≤ d.1) = true →
      decide (a.1 ≤ d.1) = true := by
    intro a b d hab hbd
    rw [decide_eq_true_eq] at hab hbd ⊢
    exact String.le_trans hab hbd
  have htotal : ∀ a b : String × Node, (decide (a.1 ≤ b.1) || decide (b.1 ≤ a.1)) = true := by
    intro a b
    simpa using String.le_total a.1 b.1
  have hsorted : (t.children place).Pairwise fun a b => decide (a.1 ≤ b.1) = true :=
    List.pairwise_mergeSort htrans htotal _
  have hdistinct := nodup_children hp place
  refine (hsorted.and hdistinct).imp_of_mem fun {x y} hx hy hxy => ?_
  have hne : x.1 ≠ y.1 := fun e => hxy.2 (hp.eq_of_name hx hy e)
  exact String.not_le.mp fun hle => hne (String.le_antisymm (by simpa using hxy.1) hle)

/-- A walk finds the files in the order of their names. -/
theorem pairwise_walk {t : FileTree} (hp : t.Proper) {start : Path} {inside : List Names}
    {place shown : Names} : (t.walk start inside place shown).Pairwise (· < ·) := by
  induction inside, place, shown using walk_induction t start with
  | h inside place shown ih =>
    rw [walk_eq_under, List.pairwise_flatMap]
    constructor
    · intro x hx
      unfold under
      split
      · exact .nil
      · exact List.pairwise_singleton _ _
      · next p hlead => exact ih x hx p hlead
    · refine (pairwise_children hp place).imp_of_mem fun {x y} _ _ hxy => ?_
      intro names hn names' hn'
      obtain ⟨rest, rfl⟩ := shown_of_mem_under hn
      obtain ⟨rest', rfl⟩ := shown_of_mem_under hn'
      exact List.append_left_lt (List.cons_lt_cons_iff.mpr (.inl hxy))

theorem pairwise_filesBelow {t : FileTree} (hp : t.Proper) (p : Path) :
    (t.filesBelow p).Pairwise (· < ·) := by
  unfold filesBelow
  split
  · exact .nil
  · split
    · exact List.pairwise_singleton _ _
    · exact pairwise_walk hp
    · exact .nil

/-! ### The walk as a loop -/

/-- An entry that is still to be visited: the directories that the walk is inside of, the
directory that the entry stands in, by its place and as the walk shows it, and the entry. -/
structure Visit where
  inside : List Names
  place : Names
  shown : Names
  entry : String × Node

/-- How far a search has come: the entries still to be visited and the files found. -/
structure Search where
  todo : List Visit
  found : List Names

/-- The visits to the entries of a directory. -/
def visits (t : FileTree) (inside : List Names) (place shown : Names) : List Visit :=
  (t.children place).map (Visit.mk inside place shown)

/-- The start of a search: a file is found, and a directory is opened. -/
def search (t : FileTree) (p : Path) : Search :=
  match t.resolve p with
  | .error _ => ⟨[], []⟩
  | .ok place =>
    match t.get? place with
    | some (.item (.file _)) => ⟨[], [[]]⟩
    | some (.item .directory) => ⟨t.visits [place] place [], []⟩
    | _ => ⟨[], []⟩

/-- One step of a search visits the next entry: a file is found, and the entries of a
directory are visited before all others. -/
def searchStep (t : FileTree) (start : Path) (s : Search) : Search :=
  match s.todo with
  | [] => s
  | v :: todo =>
    match t.leadOf start v.inside v.place v.shown v.entry with
    | .nothing => ⟨todo, s.found⟩
    | .file => ⟨todo, s.found ++ [v.shown ++ [v.entry.1]]⟩
    | .directory p => ⟨t.visits (p :: v.inside) p (v.shown ++ [v.entry.1]) ++ todo, s.found⟩

/-- Some number of steps takes a search from the one state to the other. -/
def Steps (t : FileTree) (start : Path) (s s' : Search) : Prop :=
  ∃ n, (t.searchStep start)^[n] s = s'

theorem Steps.trans {t : FileTree} {start : Path} {a b c : Search} (h : t.Steps start a b)
    (h' : t.Steps start b c) : t.Steps start a c := by
  obtain ⟨n, rfl⟩ := h
  obtain ⟨m, rfl⟩ := h'
  exact ⟨m + n, Function.iterate_add_apply _ m n a⟩

/-- The visits to a directory end, and find what a walk finds there. -/
theorem steps_visits (t : FileTree) (start : Path) (inside : List Names) (place shown : Names) :
    ∀ todo found, t.Steps start ⟨t.visits inside place shown ++ todo, found⟩
      ⟨todo, found ++ t.walk start inside place shown⟩ := by
  induction inside, place, shown using walk_induction t start with
  | h inside place shown ih =>
    have hvisits : ∀ xs : List (String × Node), (∀ x ∈ xs, x ∈ t.children place) →
        ∀ todo found, t.Steps start ⟨xs.map (Visit.mk inside place shown) ++ todo, found⟩
          ⟨todo, found ++ xs.flatMap (t.under start inside place shown)⟩ := by
      intro xs
      induction xs with
      | nil => exact fun _ todo found => ⟨0, by simp⟩
      | cons x xs ihs =>
        intro hxs todo found
        have hrest := ihs (fun y hy => hxs y (List.mem_cons_of_mem _ hy)) todo
        -- the first entry is visited in a step, and a directory then in the steps of its own
        have hfirst : t.Steps start
            ⟨(x :: xs).map (Visit.mk inside place shown) ++ todo, found⟩
            ⟨xs.map (Visit.mk inside place shown) ++ todo,
              found ++ t.under start inside place shown x⟩ := by
          cases hlead : t.leadOf start inside place shown x with
          | nothing => exact ⟨1, by simp [searchStep, under, hlead]⟩
          | file => exact ⟨1, by simp [searchStep, under, hlead]⟩
          | directory p =>
            have hopen : t.Steps start ⟨(x :: xs).map (Visit.mk inside place shown) ++ todo, found⟩
                ⟨t.visits (p :: inside) p (shown ++ [x.1]) ++
                  (xs.map (Visit.mk inside place shown) ++ todo), found⟩ :=
              ⟨1, by simp [searchStep, hlead]⟩
            have hbelow := hopen.trans (ih x (hxs x List.mem_cons_self) p hlead _ found)
            simpa only [under, hlead] using hbelow
        have h := hfirst.trans (hrest _)
        simpa using h
    rw [walk_eq_under]
    exact hvisits _ fun x hx => hx

/-- **Every search ends**, with what a walk finds. -/
theorem search_ends (t : FileTree) (p : Path) :
    t.Steps p (t.search p) ⟨[], t.filesBelow p⟩ := by
  unfold search filesBelow
  cases t.resolve p with
  | error e => exact ⟨0, rfl⟩
  | ok place =>
    dsimp only
    rcases t.get? place with - | (i | target)
    · exact ⟨0, rfl⟩
    · cases i with
      | file content => exact ⟨0, rfl⟩
      | directory =>
        have h := steps_visits t p [place] place [] [] []
        simpa using h
    · exact ⟨0, rfl⟩

/-! ### Where the shown paths lead -/

/-- A path that leads to a place has names that lead there. -/
theorem exists_leads_of_resolve {t : FileTree} {p : Path} {place : Names}
    (h : t.resolve p = .ok place) :
    ∃ rest, t.Leads linkLimit [] (Route.of p.text).names rest place := by
  obtain ⟨r, rest, hr, hl⟩ := resolve_eq_ok_iff.mp h
  rw [routeOf_eq_ok hr, Route.steps] at hl
  split at hl
  · obtain ⟨mid, dir, hfront, hback⟩ := hl.split rfl
    -- behind the slash the way stays where it is
    rw [← follow_eq_ok_iff, follow] at hback
    split at hback
    · cases hback
    · rw [if_pos rfl, follow] at hback
      cases hback
      exact ⟨rest, hfront⟩
  · exact ⟨rest, hl⟩

/-- A name leads to the item that stands under it, or where the link leads. -/
theorem Leads.entry {t : FileTree} {links rest : Nat} {base place : Names} {n : String}
    (h : t.Leads links base [n] rest place) (hn : IsName n) :
    (∃ i, t.get? (base ++ [n]) = some (.item i) ∧ place = base ++ [n]) ∨
      ∃ target links', t.get? (base ++ [n]) = some (.link target) ∧
        t.Leads links' (startOf base target) (Route.of target).steps rest place := by
  cases h with
  | here => exact absurd rfl hn.not_here
  | up => exact absurd rfl hn.not_up
  | item _ hi hdone =>
    cases hdone
    exact .inl ⟨_, hi, rfl⟩
  | link _ hl hback =>
    rw [List.append_nil] at hback
    exact .inr ⟨_, _, hl, hback⟩

/-- The names that a walk shows lead to the place or nowhere. -/
structure Shows (t : FileTree) (start : Path) (place shown : Names) : Prop where
  names : ∀ n ∈ shown, IsName n
  unique : ∀ {rest : Nat} {p : Names},
    t.Leads linkLimit [] (Route.of (start.below shown).text).names rest p → p = place

theorem shows_start {t : FileTree} {p : Path} {place : Names} (h : t.resolve p = .ok place) :
    t.Shows p place [] := by
  obtain ⟨rest, hl⟩ := exists_leads_of_resolve h
  exact ⟨fun n hn => absurd hn List.not_mem_nil, fun hl' => hl'.unique hl⟩

namespace Shows

variable {t : FileTree} {start : Path} {place shown : Names} {inside : List Names}
  {x : String × Node}

theorem names_entry (h : t.Shows start place shown) (hp : t.Proper) (hx : x ∈ t.children place) :
    ∀ n ∈ shown ++ [x.1], IsName n :=
  isName_shown hp h.names hx

/-- The way to an entry goes through the directory that it stands in. -/
theorem leads_entry (h : t.Shows start place shown) (hp : t.Proper) (hx : x ∈ t.children place)
    {rest : Nat} {p : Names}
    (hl : t.Leads linkLimit [] (Route.of (start.below (shown ++ [x.1])).text).names rest p) :
    ∃ mid, t.Leads mid place [x.1] rest p := by
  rw [names_below (h.names_entry hp hx), ← List.append_assoc, ← names_below h.names] at hl
  obtain ⟨mid, dir, hfront, hback⟩ := hl.split rfl
  rw [h.unique hfront] at hback
  exact ⟨mid, hback⟩

/-- A file or directory that is an entry is shown by its own place. -/
theorem item (h : t.Shows start place shown) (hp : t.Proper) {c : String} {i : Item}
    (hx : (c, .item i) ∈ t.children place) : t.Shows start (place ++ [c]) (shown ++ [c]) := by
  refine ⟨h.names_entry hp hx, fun hl => ?_⟩
  obtain ⟨mid, hentry⟩ := h.leads_entry hp hx hl
  rcases hentry.entry (hp.isName hx) with ⟨-, -, rfl⟩ | ⟨target, -, hlink, -⟩
  · rfl
  · rw [hp.mem_children.mp hx] at hlink
    cases hlink

/-- A directory that a walk goes through is shown by its place. -/
theorem directory (h : t.Shows start place shown) (hp : t.Proper) (hx : x ∈ t.children place)
    {p : Names} (hlead : t.leadOf start inside place shown x = .directory p) :
    t.Shows start p (shown ++ [x.1]) := by
  obtain ⟨c, n⟩ := x
  cases n with
  | item i =>
    cases i with
    | file content =>
      simp only [leadOf] at hlead
      split at hlead <;> cases hlead
    | directory =>
      cases hlead
      exact h.item hp hx
  | link target =>
    obtain ⟨hresolve, -, -⟩ := resolve_of_linkLead hlead
    obtain ⟨rest, hl⟩ := exists_leads_of_resolve hresolve
    exact ⟨h.names_entry hp hx, fun hl' => hl'.unique hl⟩

/-- A file that a walk finds is one that the shown path leads to. -/
theorem file (h : t.Shows start place shown) (hp : t.Proper) (hx : x ∈ t.children place)
    (hlead : t.leadOf start inside place shown x = .file) :
    ∃ c, t.status (start.below (shown ++ [x.1])) = .ok (.file c) := by
  obtain ⟨c, n⟩ := x
  cases n with
  | item i =>
    cases i with
    | file content =>
      simp only [leadOf] at hlead
      split at hlead
      · next hholds =>
        obtain ⟨p, i, hresolve, hi⟩ := holds_iff.mp hholds
        obtain ⟨rest, hl⟩ := exists_leads_of_resolve hresolve
        have hplace := (h.item hp hx).unique hl
        rw [hplace] at hresolve
        exact ⟨content, status_eq_ok_iff.mpr ⟨_, hresolve, hp.mem_children.mp hx⟩⟩
      · cases hlead
    | directory => cases hlead
  | link target => exact status_of_linkLead hlead

/-- What a walk finds is shown under names. -/
theorem names_of_mem_walk (h : t.Shows start place shown) (hp : t.Proper) {names : Names}
    (hn : names ∈ t.walk start inside place shown) : ∀ n ∈ names, IsName n := by
  induction inside, place, shown using walk_induction t start with
  | h inside place shown ih =>
    rw [walk_eq_under, List.mem_flatMap] at hn
    obtain ⟨x, hx, hn⟩ := hn
    unfold under at hn
    split at hn
    · cases hn
    · rw [List.mem_singleton.mp hn]
      exact h.names_entry hp hx
    · next p hlead => exact ih x hx p hlead (h.directory hp hx hlead) hn

/-- What a walk finds are files. -/
theorem status_of_mem_walk (h : t.Shows start place shown) (hp : t.Proper) {names : Names}
    (hn : names ∈ t.walk start inside place shown) :
    ∃ c, t.status (start.below names) = .ok (.file c) := by
  induction inside, place, shown using walk_induction t start with
  | h inside place shown ih =>
    rw [walk_eq_under, List.mem_flatMap] at hn
    obtain ⟨x, hx, hn⟩ := hn
    unfold under at hn
    split at hn
    · cases hn
    · next hlead =>
      rw [List.mem_singleton.mp hn]
      exact h.file hp hx hlead
    · next p hlead => exact ih x hx p hlead (h.directory hp hx hlead) hn

end Shows

/-- Every path that a search finds leads to a file. -/
theorem status_of_mem_filesBelow {t : FileTree} (hp : t.Proper) {p : Path} {names : Names}
    (h : names ∈ t.filesBelow p) : ∃ c, t.status (p.below names) = .ok (.file c) := by
  unfold filesBelow at h
  split at h
  · cases h
  · next place hresolve =>
    split at h
    · next c hfile =>
      rw [List.mem_singleton.mp h]
      exact ⟨c, status_eq_ok_iff.mpr ⟨place, hresolve, hfile⟩⟩
    · exact (shows_start hresolve).status_of_mem_walk hp h
    · cases h

theorem holds_of_mem_filesBelow {t : FileTree} (hp : t.Proper) {p : Path} {names : Names}
    (h : names ∈ t.filesBelow p) : t.holds (p.below names) = true := by
  obtain ⟨c, hc⟩ := status_of_mem_filesBelow hp h
  rw [holds, hc]
  rfl

theorem isName_of_mem_filesBelow {t : FileTree} (hp : t.Proper) {p : Path} {names : Names}
    (h : names ∈ t.filesBelow p) : ∀ n ∈ names, IsName n := by
  unfold filesBelow at h
  split at h
  · cases h
  · next place hresolve =>
    split at h
    · rw [List.mem_singleton.mp h]
      exact fun n hn => absurd hn List.not_mem_nil
    · exact (shows_start hresolve).names_of_mem_walk hp h
    · cases h

/-! ### Links that lead nowhere -/

/-- A link that leads nowhere, however many links are followed. -/
def Broken (t : FileTree) (q : Names) : Prop :=
  ∃ target, t.get? q = some (.link target) ∧ ∀ links rest place,
    ¬ t.Leads links (startOf q.dropLast target) (Route.of target).steps rest place

/-- The other tree has the same at every place, unless it lacks a link that leads nowhere. -/
def Trims (t u : FileTree) : Prop :=
  ∀ q, u.get? q = t.get? q ∨ u.get? q = none ∧ t.Broken q

/-- The order of the entries does not matter. -/
theorem Proper.of_perm {t u : FileTree} (hp : t.Proper) (h : u.entries.Perm t.entries) :
    u.Proper :=
  ⟨(h.map Prod.fst).nodup_iff.mpr hp.distinct, fun e he => hp.names e (h.mem_iff.mp he)⟩

namespace Trims

variable {t u : FileTree}

/-- A tree with the same entries in another order. -/
theorem of_perm (hp : t.Proper) (h : u.entries.Perm t.entries) : Trims t u := by
  have hu : u.Proper := hp.of_perm h
  intro q
  refine .inl (Option.ext fun n => ?_)
  by_cases hq : q = []
  · rw [hq]
    rfl
  · constructor
    · exact fun hn => hp.get?_of_mem hq (h.mem_iff.mp (mem_entries_of_get? hq hn))
    · exact fun hn => hu.get?_of_mem hq (h.mem_iff.mpr (mem_entries_of_get? hq hn))

/-- What is there was there. -/
theorem get?_before (h : Trims t u) {q : Names} {n : Node} (hn : u.get? q = some n) :
    t.get? q = some n := by
  rcases h q with e | ⟨hnone, -⟩
  · rw [← e, hn]
  · rw [hnone] at hn
    cases hn

/-- What is no link is still there. -/
theorem get?_item (h : Trims t u) {q : Names} {i : Item} (hi : t.get? q = some (.item i)) :
    u.get? q = some (.item i) := by
  rcases h q with e | ⟨-, target, hlink, -⟩
  · rw [e, hi]
  · rw [hlink] at hi
    cases hi

/-- Names lead where they led. -/
theorem leads_iff (h : Trims t u) {links rest : Nat} {base place : Names} {names : List String} :
    u.Leads links base names rest place ↔ t.Leads links base names rest place := by
  constructor
  · intro hl
    induction hl with
    | done => exact .done
    | here hd _ ih => exact .here (h.get?_before hd) ih
    | up hd _ ih => exact .up (h.get?_before hd) ih
    | item he hi _ ih =>
      exact .item { he with directory := h.get?_before he.directory } (h.get?_before hi) ih
    | link he hl _ ih =>
      exact .link { he with directory := h.get?_before he.directory } (h.get?_before hl) ih
  · intro hl
    induction hl with
    | done => exact .done
    | here hd _ ih => exact .here (h.get?_item hd) ih
    | up hd _ ih => exact .up (h.get?_item hd) ih
    | item he hi _ ih =>
      exact .item { he with directory := h.get?_item he.directory } (h.get?_item hi) ih
    | @link links rest base place n target ns he hl hback ih =>
      rcases h (base ++ [n]) with e | ⟨-, target', hl', hbroken⟩
      · exact .link { he with directory := h.get?_item he.directory } (e.trans hl) ih
      · -- the way would go on behind a link that leads nowhere
        rw [hl] at hl'
        cases hl'
        rw [List.dropLast_concat] at hbroken
        obtain ⟨mid, dir, hfront, -⟩ := hback.split rfl
        exact absurd hfront (hbroken _ _ _)

theorem resolve_iff (h : Trims t u) {p : Path} {place : Names} :
    u.resolve p = .ok place ↔ t.resolve p = .ok place := by
  rw [resolve_eq_ok_iff, resolve_eq_ok_iff]
  simp only [h.leads_iff]

theorem holds_eq (h : Trims t u) (p : Path) : u.holds p = t.holds p := by
  rw [Bool.eq_iff_iff, holds_iff, holds_iff]
  constructor
  · rintro ⟨place, i, hresolve, hi⟩
    exact ⟨place, i, h.resolve_iff.mp hresolve, h.get?_before hi⟩
  · rintro ⟨place, i, hresolve, hi⟩
    exact ⟨place, i, h.resolve_iff.mpr hresolve, h.get?_item hi⟩

theorem linkLead_eq (h : Trims t u) (inside : List Names) (path : Path) :
    u.linkLead inside path = t.linkLead inside path := by
  cases hr : t.resolve path with
  | error e =>
    have hnot : ∀ target, t.resolve path ≠ .ok target := by simp [hr]
    rw [linkLead_of_not_resolve hnot,
      linkLead_of_not_resolve fun target => mt h.resolve_iff.mp (hnot target)]
  | ok target =>
    rw [linkLead_of_resolve hr, linkLead_of_resolve (h.resolve_iff.mpr hr)]
    rcases h target with e | ⟨hnone, target', hlink, -⟩
    · rw [e]
    · rw [hnone, hlink]

/-- An entry gives a walk what it gave. -/
theorem leadOf_eq (h : Trims t u) (start : Path) (inside : List Names) (place shown : Names)
    (x : String × Node) :
    u.leadOf start inside place shown x = t.leadOf start inside place shown x := by
  unfold leadOf
  rw [h.holds_eq, h.linkLead_eq]

/-- The entries are those before, without the links that are gone. -/
theorem children_eq (h : Trims t u) (hp : t.Proper) (hu : u.Proper) (place : Names) :
    u.children place =
      (t.children place).filter fun x => (u.get? (place ++ [x.1])).isSome := by
  have hsame : ∀ x, x ∈ u.children place ↔
      x ∈ (t.children place).filter fun x => (u.get? (place ++ [x.1])).isSome := by
    intro x
    rw [List.mem_filter, hu.mem_children, hp.mem_children]
    constructor
    · exact fun hx => ⟨h.get?_before hx, by rw [hx]; rfl⟩
    · rintro ⟨hx, hsome⟩
      obtain ⟨n, hn⟩ := Option.isSome_iff_exists.mp hsome
      rw [h.get?_before hn] at hx
      rw [hn, hx]
  have hperm := (List.perm_ext_iff_of_nodup (nodup_children hu place)
    ((nodup_children hp place).filter _)).mpr hsame
  exact hperm.eq_of_pairwise (fun x y _ _ hxy hyx => absurd hyx (String.lt_asymm hxy))
    (pairwise_children hu place) ((pairwise_children hp place).filter _)

/-- Under a link that is gone nothing was found. -/
theorem under_eq_nil (h : Trims t u) (hp : t.Proper) {start : Path} {inside : List Names}
    {place shown : Names} (hs : t.Shows start place shown) {x : String × Node}
    (hx : x ∈ t.children place) (hnone : u.get? (place ++ [x.1]) = none) :
    t.under start inside place shown x = [] := by
  have hnode := hp.mem_children.mp hx
  rcases h (place ++ [x.1]) with e | ⟨-, target, hlink, hbroken⟩
  · rw [e, hnode] at hnone
    cases hnone
  · rw [List.dropLast_concat] at hbroken
    rw [hnode] at hlink
    have hlink := Option.some.inj hlink
    have hnot : ∀ p, t.resolve (start.below (shown ++ [x.1])) ≠ .ok p := by
      intro p hresolve
      obtain ⟨rest, hl⟩ := exists_leads_of_resolve hresolve
      obtain ⟨mid, hentry⟩ := hs.leads_entry hp hx hl
      rcases hentry.entry (hp.isName hx) with ⟨i, hi, -⟩ | ⟨target', links, hl, hback⟩
      · rw [hnode, hlink] at hi
        cases hi
      · rw [hnode, hlink] at hl
        cases hl
        exact hbroken _ _ _ hback
    unfold under leadOf
    rw [hlink]
    simp only [linkLead_of_not_resolve hnot]

theorem walk_eq (h : Trims t u) (hp : t.Proper) (hu : u.Proper) {start : Path}
    {inside : List Names} {place shown : Names} (hs : t.Shows start place shown) :
    u.walk start inside place shown = t.walk start inside place shown := by
  induction inside, place, shown using walk_induction t start with
  | h inside place shown ih =>
    have hkept : ∀ x ∈ t.children place,
        (if (u.get? (place ++ [x.1])).isSome then u.under start inside place shown x else []) =
          t.under start inside place shown x := by
      intro x hx
      split
      · unfold under
        rw [h.leadOf_eq]
        split
        · rfl
        · rfl
        · next p hlead => exact ih x hx p hlead (hs.directory hp hx hlead)
      · next hnone =>
        exact (h.under_eq_nil hp hs hx (Option.not_isSome_iff_eq_none.mp hnone)).symm
    rw [walk_eq_under, walk_eq_under, h.children_eq hp hu, flatMap_filter]
    exact List.flatMap_congr hkept

/-- **Links that lead nowhere are passed over.** Without them the same is found. -/
theorem filesBelow_eq (h : Trims t u) (hp : t.Proper) (hu : u.Proper) (p : Path) :
    u.filesBelow p = t.filesBelow p := by
  unfold filesBelow
  cases hr : t.resolve p with
  | error e =>
    cases hur : u.resolve p with
    | error e' => rfl
    | ok place => rw [h.resolve_iff.mp hur] at hr; cases hr
  | ok place =>
    rw [h.resolve_iff.mpr hr]
    dsimp only
    rw [h.walk_eq hp hu (shows_start hr)]
    rcases h place with e | ⟨hnone, target, hlink, -⟩
    · rw [e]
    · rw [hnone, hlink]

end Trims

end FileTree
end Disk
end ModelStubs
