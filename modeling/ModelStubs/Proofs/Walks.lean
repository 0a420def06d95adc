/-
# Walks through trees that differ by a file

On a disk every place is listed once, under names that a file may have
(`Disk.FileTree.Proper`). A walk through such a tree without links goes down the places
below its start, and the path of each file spells the place at which it stands.

So a file that is put somewhere below the start shows up once, between the files that
were there before, and these keep their order (`Disk.FileTree.filesBelow_put`).

Key definitions: `Disk.IsName`, `Disk.FileTree.Proper`, `Disk.FileTree.visit`.
Key theorems: `Disk.FileTree.walk_eq`, `Disk.FileTree.walk_put_off`,
`Disk.FileTree.walk_put_on`, `Disk.FileTree.filesBelow_put`.
-/
import ModelStubs.Proofs.Bystanders

namespace ModelStubs
namespace Disk

open FileTree (Route)

/-- A name that a file or a directory may have. -/
structure IsName (n : String) : Prop where
  ne_empty : n ≠ ""
  no_slash : '/' ∉ n.toList
  not_here : n ≠ "."
  not_up : n ≠ ".."

instance (n : String) : Decidable (IsName n) :=
  decidable_of_iff (n ≠ "" ∧ '/' ∉ n.toList ∧ n ≠ "." ∧ n ≠ "..")
    ⟨fun ⟨h1, h2, h3, h4⟩ => ⟨h1, h2, h3, h4⟩, fun ⟨h1, h2, h3, h4⟩ => ⟨h1, h2, h3, h4⟩⟩

/-- The route of a name is the name. -/
theorem IsName.names {n : String} (h : IsName n) : (Route.of n).names = [n] := by
  rw [FileTree.Route.names_of, Text.pieces_of_not_mem '/' n.toList h.no_slash]
  simp [FileTree.partNames, h.ne_empty]

theorem IsName.isAbsolute {n : String} (h : IsName n) : (Path.mk n).isAbsolute = false := by
  cases hn : n.toList with
  | nil => simp [Path.isAbsolute, hn]
  | cons c s =>
    have hc : c ≠ '/' := fun e => h.no_slash (by simp [hn, e])
    simp [Path.isAbsolute, hn, hc]

/-- Names below a path stand behind its names. -/
theorem names_below : ∀ {ns : List String} {start : Path}, (∀ n ∈ ns, IsName n) →
    (Route.of (start.below ns).text).names = (Route.of start.text).names ++ ns
  | [], start, _ => by simp [Path.below]
  | n :: ns, start, h => by
    have hn := h n List.mem_cons_self
    have ih : (Route.of ((start.child n).below ns).text).names =
        (Route.of (start.child n).text).names ++ ns :=
      names_below fun m hm => h m (List.mem_cons_of_mem _ hm)
    have hchild : (Route.of (start.child n).text).names = (Route.of start.text).names ++ [n] := by
      rw [Path.child, FileTree.names_join hn.isAbsolute, hn.names]
    have hbelow : start.below (n :: ns) = (start.child n).below ns := rfl
    rw [hbelow, ih, hchild]
    simp

/-- Names below a path are put behind its place. -/
theorem place_below {ns : List String} {start : Path} (h : ∀ n ∈ ns, IsName n) :
    (start.below ns).place = start.place ++ ns := by
  rw [Path.place_eq_landing, names_below h, landing_append, ← Path.place_eq_landing]
  exact landing_plain fun n hn => ⟨(h n hn).not_here, (h n hn).not_up⟩

namespace FileTree

/-- Every place is listed once, under names that a file may have. -/
structure Proper (t : FileTree) : Prop where
  distinct : (t.entries.map Prod.fst).Nodup
  names : ∀ e ∈ t.entries, ∀ n ∈ e.1, IsName n

/-- An entry is what stands at its place. -/
theorem Proper.get?_of_mem {t : FileTree} (h : t.Proper) {place : Names} {n : Node}
    (hne : place ≠ []) (hm : (place, n) ∈ t.entries) : t.get? place = some n := by
  have hlookup : t.entries.lookup place = some n := by
    obtain ⟨before, after, he⟩ := List.append_of_mem hm
    refine List.lookup_eq_some_iff.mpr ⟨before, after, he, fun e hb => ?_⟩
    have hd := h.distinct
    rw [he, List.map_append, List.map_cons] at hd
    have hnot := (List.nodup_append.mp hd).2.2 e.1 (List.mem_map_of_mem hb) place List.mem_cons_self
    simpa using Ne.symm hnot
  cases place with
  | nil => exact absurd rfl hne
  | cons x xs => exact hlookup

theorem Proper.mem_children {t : FileTree} (h : t.Proper) {place : Names} {x : String × Node} :
    x ∈ t.children place ↔ t.get? (place ++ [x.1]) = some x.2 := by
  constructor
  · intro hx
    exact h.get?_of_mem (by simp) (mem_entries_of_mem_children hx)
  · intro hx
    have hm := mem_entries_of_get? (by simp) hx
    unfold children
    rw [List.mem_mergeSort, List.mem_filterMap]
    exact ⟨_, hm, by simp [childOf]⟩

/-- What stands in a directory has a name. -/
theorem Proper.isName {t : FileTree} (h : t.Proper) {place : Names} {x : String × Node}
    (hx : x ∈ t.children place) : IsName x.1 :=
  h.names _ (mem_entries_of_mem_children hx) x.1 (by simp)

/-- Different entries of a directory have different names. -/
theorem Proper.eq_of_name {t : FileTree} (h : t.Proper) {place : Names} {x y : String × Node}
    (hx : x ∈ t.children place) (hy : y ∈ t.children place) (e : x.1 = y.1) : x = y := by
  have hnode := h.mem_children.mp hx
  rw [e, h.mem_children.mp hy] at hnode
  exact Prod.ext e (Option.some.inj hnode).symm

theorem nodup_children {t : FileTree} (h : t.Proper) (place : Names) :
    (t.children place).Nodup := by
  have hchild : (t.entries.filterMap (childOf place)).Nodup := by
    refine List.Nodup.filterMap ?_ (List.Nodup.of_map _ h.distinct)
    intro a b x ha hb
    have hname : ∀ e : Names × Node, x ∈ childOf place e → e = (place ++ [x.1], x.2) := by
      intro e he
      unfold childOf at he
      split at he
      · cases he
      · split at he
        · next hk =>
          cases he
          exact Prod.ext hk rfl
        · cases he
    rw [hname a ha, hname b hb]
  exact (List.mergeSort_perm _ _).nodup_iff.mpr hchild

/-! ### A walk without links -/

/-- The files that a walk finds under an entry of a directory. -/
def visit (t : FileTree) (start : Path) (inside : List Names) (place shown : Names)
    (x : String × Node) : List Names :=
  match x.2 with
  | .item (.file _) => if t.holds (start.below (shown ++ [x.1])) then [shown ++ [x.1]] else []
  | .item .directory =>
    t.walk start ((place ++ [x.1]) :: inside) (place ++ [x.1]) (shown ++ [x.1])
  | .link _ => []

/-- Without links a walk visits the entries of a directory in their order. -/
theorem walk_eq {t : FileTree} (ht : t.Unlinked) (hp : t.Proper) (start : Path)
    (inside : List Names) (place shown : Names) :
    t.walk start inside place shown =
      (t.children place).flatMap (t.visit start inside place shown) := by
  rw [walk]
  refine (List.flatMap_subtype fun x hx => ?_).trans (by rw [List.unattach_attach])
  obtain ⟨c, n⟩ := x
  cases n with
  | item i =>
    cases i with
    | file content => rfl
    | directory => rfl
  | link target => exact absurd (hp.mem_children.mp hx) (ht _ _)

/-! ### One file more -/

/-- What is put where nothing was stands behind the other entries. -/
theorem putEntry_of_absent {place : Names} {n : Node} : ∀ {es : List (Names × Node)},
    (∀ e ∈ es, e.1 ≠ place) → putEntry place n es = es ++ [(place, n)]
  | [], _ => rfl
  | e :: es, h => by
    have he := h e List.mem_cons_self
    have ih : putEntry place n es = es ++ [(place, n)] :=
      putEntry_of_absent fun d hd => h d (List.mem_cons_of_mem _ hd)
    rw [putEntry, if_neg he, ih]
    rfl

section Put

variable {t : FileTree} {p : Names} {content : Content}

theorem ne_of_absent (hp : t.Proper) (hnone : t.get? p = none) : ∀ e ∈ t.entries, e.1 ≠ p := by
  rintro ⟨q, n⟩ he rfl
  have hne : q ≠ [] := by
    rintro rfl
    simp [FileTree.get?] at hnone
  rw [hp.get?_of_mem hne he] at hnone
  cases hnone

theorem entries_put (hp : t.Proper) (hnone : t.get? p = none) (n : Node) :
    (t.put p n).entries = t.entries ++ [(p, n)] :=
  putEntry_of_absent (ne_of_absent hp hnone)

/-- A tree stays proper when a file gets a name. -/
theorem Proper.put (hp : t.Proper) (hnone : t.get? p = none) (hnames : ∀ n ∈ p, IsName n)
    (n : Node) : (t.put p n).Proper := by
  refine ⟨?_, fun e he => ?_⟩
  · rw [entries_put hp hnone, List.map_append]
    refine List.nodup_append.mpr ⟨hp.distinct, by simp, fun q hq r hr => ?_⟩
    obtain ⟨e, he, rfl⟩ := List.mem_map.mp hq
    have hrp : r = p := by simpa using hr
    rw [hrp]
    exact ne_of_absent hp hnone e he
  · rw [entries_put hp hnone] at he
    rcases List.mem_append.mp he with he | he
    · exact hp.names e he
    · rw [List.mem_singleton.mp he]
      exact hnames

/-- The other directories list what they did. -/
theorem children_put_of_ne (hp : t.Proper) (hnone : t.get? p = none) {place : Names}
    (hne : ∀ c, p ≠ place ++ [c]) (n : Node) : (t.put p n).children place = t.children place := by
  have hchild : childOf place (p, n) = none := by
    unfold childOf
    split
    · rfl
    · next c _ =>
      rw [if_neg]
      exact hne c
  unfold children
  rw [entries_put hp hnone, List.filterMap_append]
  simp [hchild]

/-- The directory of the file lists it between its other entries. -/
theorem children_put_self (hp : t.Proper) {place : Names} {c : String}
    (hnone : t.get? (place ++ [c]) = none) (hc : IsName c) (hplace : ∀ n ∈ place, IsName n)
    (n : Node) : ∃ before after, t.children place = before ++ after ∧
      (t.put (place ++ [c]) n).children place = before ++ (c, n) :: after := by
  have hnames : ∀ m ∈ place ++ [c], IsName m := by
    intro m hm
    rcases List.mem_append.mp hm with hm | hm
    · exact hplace m hm
    · rw [List.mem_singleton.mp hm]
      exact hc
  have hput := hp.put hnone hnames n
  have hchild : childOf place (place ++ [c], n) = some (c, n) := by simp [childOf]
  have htrans : ∀ a b d : String × Node, decide (a.1 ≤ b.1) = true → decide (b.1 ≤ d.1) = true →
      decide (a.1 ≤ d.1) = true := by
    intro a b d hab hbd
    rw [decide_eq_true_eq] at hab hbd ⊢
    exact String.le_trans hab hbd
  have htotal : ∀ a b : String × Node, (decide (a.1 ≤ b.1) || decide (b.1 ≤ a.1)) = true := by
    intro a b
    simpa using String.le_total a.1 b.1
  obtain ⟨before, after, hcons, hold, -⟩ :=
    List.mergeSort_cons htrans htotal (c, n) (t.entries.filterMap (childOf place))
  refine ⟨before, after, hold, ?_⟩
  rw [← hcons]
  have hperm : ((t.put (place ++ [c]) n).children place).Perm
      (((c, n) :: t.entries.filterMap (childOf place)).mergeSort
        fun a b => decide (a.1 ≤ b.1)) := by
    have hlist : (t.put (place ++ [c]) n).entries.filterMap (childOf place) =
        t.entries.filterMap (childOf place) ++ [(c, n)] := by
      rw [entries_put hp hnone, List.filterMap_append]
      simp [hchild]
    unfold children
    rw [hlist]
    refine (List.mergeSort_perm _ _).trans (List.Perm.trans ?_ (List.mergeSort_perm _ _).symm)
    exact List.perm_append_singleton _ _
  -- names are different, so the order of the names is the order of the list
  refine List.Perm.eq_of_pairwise ?_ (List.pairwise_mergeSort htrans htotal _)
    (List.pairwise_mergeSort htrans htotal _) hperm
  intro a b ha hb hab hba
  have hb := hperm.mem_iff.mpr hb
  rw [decide_eq_true_eq] at hab hba
  exact hput.eq_of_name ha hb (String.le_antisymm hab hba)

end Put

/-! ### Paths past the file -/

/-- Names that do not end at the file lead through the first tree as through the second. -/
theorem Leads.past {p : Names} {content : Content} {t u : FileTree} (h : Beside p content t u)
    {links rest : Nat} {base place : Names} {names : List String}
    (hl : u.Leads links base names rest place) (hne : place ≠ p) (hu : u.Unlinked) :
    t.Leads links base names rest place := by
  have hdir : ∀ q, u.get? q = some (.item .directory) → t.get? q = some (.item .directory) := by
    intro q hq
    have hqp : q ≠ p := by
      rintro rfl
      rw [h.present] at hq
      cases hq
    rw [← h.others q hqp, hq]
  induction hl with
  | done => exact .done
  | here hd _ ih => exact .here (hdir _ hd) (ih hne)
  | up hd _ ih => exact .up (hdir _ hd) (ih hne)
  | @item links rest base place n ns i he hi hl ih =>
    have hnext : base ++ [n] ≠ p := by
      intro e
      cases ns with
      | nil =>
        cases hl
        exact hne e
      | cons m ms =>
        have hd := hl.start.1
        rw [e, h.present] at hd
        cases hd
    refine .item { he with directory := hdir _ he.directory } (i := i) ?_ (ih hne)
    rw [← h.others _ hnext, hi]
  | link _ hl _ _ => exact absurd hl (hu _ _)

/-- A path that does not spell the place of the file leads somewhere as before. -/
theorem Beside.holds_of_ne {p : Names} {content : Content} {t u : FileTree}
    (h : Beside p content t u) (ht : t.Unlinked) {q : Path} (hq : q.place ≠ p) :
    u.holds q = t.holds q := by
  rw [Bool.eq_iff_iff, holds_iff, holds_iff]
  constructor
  · rintro ⟨place, i, hr, hi⟩
    have hplace : place = q.place := place_of_resolve (h.unlinked ht) hr
    have hne : place ≠ p := hplace ▸ hq
    obtain ⟨r, rest, hroute, hl⟩ := resolve_eq_ok_iff.mp hr
    refine ⟨place, i, ?_, ?_⟩
    · exact resolve_eq_ok_iff.mpr ⟨r, rest, hroute, hl.past h hne (h.unlinked ht)⟩
    · rw [← h.others place hne, hi]
  · rintro ⟨place, i, hr, hi⟩
    have hplace : place = q.place := place_of_resolve ht hr
    refine ⟨place, i, h.grows.resolve hr, ?_⟩
    rw [h.others place (hplace ▸ hq), hi]

/-! ### A walk past the file, and one that finds it -/

section WalkPut

variable {t u : FileTree} {p : Names} {content : Content} {start : Path}

/-- Names that are shown stay names. -/
theorem isName_shown (hp : t.Proper) {place shown : Names} (hshown : ∀ n ∈ shown, IsName n)
    {x : String × Node} (hx : x ∈ t.children place) : ∀ n ∈ shown ++ [x.1], IsName n := by
  intro n hn
  rcases List.mem_append.mp hn with hn | hn
  · exact hshown n hn
  · rw [List.mem_singleton.mp hn]
    exact hp.isName hx

/-- An entry that the file is not under is visited as before. -/
theorem visit_eq (h : Beside p content t u) (ht : t.Unlinked) (hp : t.Proper)
    {inside : List Names} {place shown : Names} (hplace : place = start.place ++ shown)
    (hshown : ∀ n ∈ shown, IsName n) {x : String × Node} (hx : x ∈ t.children place)
    (hne : place ++ [x.1] ≠ p)
    (hdir : x.2 = .item .directory →
      u.walk start ((place ++ [x.1]) :: inside) (place ++ [x.1]) (shown ++ [x.1]) =
        t.walk start ((place ++ [x.1]) :: inside) (place ++ [x.1]) (shown ++ [x.1])) :
    u.visit start inside place shown x = t.visit start inside place shown x := by
  have hnames := isName_shown hp hshown hx
  have hpath : (start.below (shown ++ [x.1])).place = place ++ [x.1] := by
    rw [place_below hnames, hplace]
    simp
  have hholds : u.holds (start.below (shown ++ [x.1])) = t.holds (start.below (shown ++ [x.1])) :=
    h.holds_of_ne ht (hpath ▸ hne)
  obtain ⟨c, n⟩ := x
  cases n with
  | link target => rfl
  | item i =>
    cases i with
    | file content => simp only [visit, hholds]
    | directory => exact hdir rfl

/-- A walk through a directory that the file is not under finds what it did. -/
theorem walk_put_off (ht : t.Unlinked) (hp : t.Proper) (hnone : t.get? p = none)
    (hnames : ∀ n ∈ p, IsName n) {inside : List Names} {place shown : Names}
    (hplace : place = start.place ++ shown) (hshown : ∀ n ∈ shown, IsName n)
    (hoff : ¬ place <+: p) :
    (t.put p (.item (.file content))).walk start inside place shown =
      t.walk start inside place shown := by
  have h : Beside p content t (t.put p (.item (.file content))) := .of_put hnone
  have hput : (t.put p (.item (.file content))).Proper := hp.put hnone hnames _
  induction inside, place, shown using walk.induct (t := t) with
  | case1 inside place shown ih _ =>
    have hsame : (t.put p (.item (.file content))).children place = t.children place :=
      children_put_of_ne hp hnone (fun c e => hoff (e ▸ List.prefix_append _ _)) _
    rw [walk_eq ht hp, walk_eq (h.unlinked ht) hput, hsame]
    refine List.flatMap_congr fun x hx => ?_
    have hbelow : ¬ place ++ [x.1] <+: p := fun e => hoff ((List.prefix_append _ _).trans e)
    refine visit_eq h ht hp hplace hshown hx (fun e => hbelow (e ▸ List.prefix_rfl)) fun hd => ?_
    refine ih x.1 (by rw [← hd]; exact hx) ?_ (isName_shown hp hshown hx) hbelow
    rw [hplace, List.append_assoc]

/-- Entries under names that do not lead to the file are visited as before. -/
theorem visits_put_of_ne (ht : t.Unlinked) (hp : t.Proper) (hnone : t.get? p = none)
    (hnames : ∀ n ∈ p, IsName n) {inside : List Names} {place shown : Names}
    (hplace : place = start.place ++ shown) (hshown : ∀ n ∈ shown, IsName n) {c : String}
    {cs : List String} (hpc : p = place ++ c :: cs) {xs : List (String × Node)}
    (hxs : ∀ x ∈ xs, x ∈ t.children place ∧ x.1 ≠ c) :
    xs.flatMap ((t.put p (.item (.file content))).visit start inside place shown) =
      xs.flatMap (t.visit start inside place shown) := by
  refine List.flatMap_congr fun x hmem => ?_
  obtain ⟨hx, hxc⟩ := hxs x hmem
  have hoff : ¬ place ++ [x.1] <+: p := by
    rw [hpc]
    intro e
    rw [List.prefix_append_right_inj] at e
    exact hxc (List.cons_prefix_cons.mp e).1
  refine visit_eq (.of_put hnone) ht hp hplace hshown hx (fun e => hoff (e ▸ List.prefix_rfl))
    fun _ => ?_
  refine walk_put_off ht hp hnone hnames ?_ (isName_shown hp hshown hx) hoff
  rw [hplace, List.append_assoc]

/-- A walk through the directory of the file finds it there. -/
theorem walk_put_here (ht : t.Unlinked) (hp : t.Proper) {inside : List Names}
    {place shown : Names} {c : String} (hnone : t.get? (place ++ [c]) = none)
    (hnames : ∀ n ∈ place ++ [c], IsName n) (hplace : place = start.place ++ shown)
    (hshown : ∀ n ∈ shown, IsName n)
    (hholds : (t.put (place ++ [c]) (.item (.file content))).holds
      (start.below (shown ++ [c])) = true) :
    ∃ before after, t.walk start inside place shown = before ++ after ∧
      (t.put (place ++ [c]) (.item (.file content))).walk start inside place shown =
        before ++ (shown ++ [c]) :: after := by
  have h : Beside (place ++ [c]) content t (t.put (place ++ [c]) (.item (.file content))) :=
    .of_put hnone
  have hput : (t.put (place ++ [c]) (.item (.file content))).Proper := hp.put hnone hnames _
  have hc : IsName c := hnames c (by simp)
  obtain ⟨before, after, hold, hnew⟩ := children_put_self hp hnone hc
    (fun n hn => hnames n (List.mem_append_left _ hn)) (.item (.file content))
  have hne : ∀ x ∈ t.children place, x.1 ≠ c := by
    rintro x hx rfl
    rw [hp.mem_children.mp hx] at hnone
    cases hnone
  have hothers : ∀ xs : List (String × Node), (∀ x ∈ xs, x ∈ t.children place) →
      xs.flatMap ((t.put (place ++ [c]) (.item (.file content))).visit start inside place shown) =
        xs.flatMap (t.visit start inside place shown) :=
    fun xs hxs => visits_put_of_ne ht hp hnone hnames hplace hshown rfl
      fun x hx => ⟨hxs x hx, hne x (hxs x hx)⟩
  have hself : (t.put (place ++ [c]) (.item (.file content))).visit start inside place shown
      (c, .item (.file content)) = [shown ++ [c]] := by
    simp only [visit, hholds, if_true]
  refine ⟨before.flatMap (t.visit start inside place shown),
    after.flatMap (t.visit start inside place shown), ?_, ?_⟩
  · rw [walk_eq ht hp, hold, List.flatMap_append]
  · rw [walk_eq (h.unlinked ht) hput, hnew, List.flatMap_append, List.flatMap_cons, hself,
      hothers before fun x hx => by simp [hold, hx], hothers after fun x hx => by simp [hold, hx]]
    rfl

/-- A walk through a directory finds the file once if the visit of the entry that leads to it
does. -/
theorem walk_put_below (ht : t.Unlinked) (hp : t.Proper) (hnone : t.get? p = none)
    (hnames : ∀ n ∈ p, IsName n) {inside : List Names} {place shown found : Names}
    (hplace : place = start.place ++ shown) (hshown : ∀ n ∈ shown, IsName n) {c d : String}
    {ds : List String} (hpc : p = place ++ c :: d :: ds) {n : Node}
    (hx : (c, n) ∈ t.children place)
    (hvisit : ∃ before after, t.visit start inside place shown (c, n) = before ++ after ∧
      (t.put p (.item (.file content))).visit start inside place shown (c, n) =
        before ++ found :: after) :
    ∃ before after, t.walk start inside place shown = before ++ after ∧
      (t.put p (.item (.file content))).walk start inside place shown =
        before ++ found :: after := by
  have h : Beside p content t (t.put p (.item (.file content))) := .of_put hnone
  have hput : (t.put p (.item (.file content))).Proper := hp.put hnone hnames _
  have hsame : (t.put p (.item (.file content))).children place = t.children place := by
    refine children_put_of_ne hp hnone (fun b e => ?_) _
    rw [hpc] at e
    simpa using List.append_cancel_left e
  obtain ⟨before, after, hsplit⟩ := List.append_of_mem hx
  -- no other entry has the name
  have hnodup := nodup_children hp place
  rw [hsplit, List.nodup_middle, List.nodup_cons] at hnodup
  have hother : ∀ x ∈ before ++ after, x ∈ t.children place ∧ x.1 ≠ c := by
    intro x hm
    have hmem : x ∈ t.children place := by
      rw [hsplit]
      exact List.perm_middle.mem_iff.mpr (List.mem_cons_of_mem _ hm)
    refine ⟨hmem, fun e => hnodup.1 ?_⟩
    rw [← hp.eq_of_name hmem hx e]
    exact hm
  have hothers : ∀ xs : List (String × Node), (∀ x ∈ xs, x ∈ before ++ after) →
      xs.flatMap ((t.put p (.item (.file content))).visit start inside place shown) =
        xs.flatMap (t.visit start inside place shown) :=
    fun xs hxs => visits_put_of_ne ht hp hnone hnames hplace hshown hpc
      fun x hm => hother x (hxs x hm)
  obtain ⟨b, a, hold, hnew⟩ := hvisit
  refine ⟨before.flatMap (t.visit start inside place shown) ++ b,
    a ++ after.flatMap (t.visit start inside place shown), ?_, ?_⟩
  · rw [walk_eq ht hp, hsplit, List.flatMap_append, List.flatMap_cons, hold]
    simp
  · rw [walk_eq (h.unlinked ht) hput, hsame, hsplit, List.flatMap_append, List.flatMap_cons, hnew,
      hothers before fun _ => List.mem_append_left _, hothers after fun _ => List.mem_append_right _]
    simp

/-- A walk through a directory that the file is under finds it once. -/
theorem walk_put_on (ht : t.Unlinked) (hp : t.Proper) (hnone : t.get? p = none)
    (hnames : ∀ n ∈ p, IsName n) {inside : List Names} {place shown : Names}
    (hplace : place = start.place ++ shown) (hshown : ∀ n ∈ shown, IsName n) :
    ∀ {c : String} {cs : List String}, p = place ++ c :: cs →
    (∀ xs y ys, c :: cs = xs ++ y :: ys →
      (t.put p (.item (.file content))).get? (place ++ xs) = some (.item .directory)) →
    (t.put p (.item (.file content))).holds (start.below (shown ++ c :: cs)) = true →
    ∃ before after, t.walk start inside place shown = before ++ after ∧
      (t.put p (.item (.file content))).walk start inside place shown =
        before ++ (shown ++ c :: cs) :: after := by
  have h : Beside p content t (t.put p (.item (.file content))) := .of_put hnone
  induction inside, place, shown using walk.induct (t := t) with
  | case1 inside place shown ih _ =>
    intro c cs hpc hdirs hholds
    cases cs with
    | nil =>
      subst hpc
      exact walk_put_here ht hp hnone hnames hplace hshown hholds
    | cons d ds =>
      have hcp : place ++ [c] ≠ p := by
        rw [hpc]
        intro e
        simpa using List.append_cancel_left e
      have hnode : t.get? (place ++ [c]) = some (.item .directory) := by
        rw [← h.others _ hcp]
        exact hdirs [c] d ds rfl
      have hx : (c, .item .directory) ∈ t.children place := hp.mem_children.mpr hnode
      have hrest : ∀ xs y ys, d :: ds = xs ++ y :: ys →
          (t.put p (.item (.file content))).get? (place ++ [c] ++ xs) =
            some (.item .directory) := by
        intro xs y ys e
        have hd := hdirs (c :: xs) y ys (by rw [e]; rfl)
        simpa using hd
      have hpath : (t.put p (.item (.file content))).holds
          (start.below (shown ++ [c] ++ d :: ds)) = true := by simpa using hholds
      have hstart : place ++ [c] = start.place ++ (shown ++ [c]) := by
        rw [hplace, List.append_assoc]
      have hpd : p = place ++ [c] ++ d :: ds := by simp [hpc]
      have hvisit := ih c hx hstart (isName_shown hp hshown hx) hpd hrest hpath
      rw [List.append_assoc] at hvisit
      exact walk_put_below ht hp hnone hnames hplace hshown hpc hx hvisit

/-- **A file that is put below a directory shows up once among the files below it.** -/
theorem filesBelow_put (ht : t.Unlinked) (hp : t.Proper) {names : Names} (hne : names ≠ [])
    (hstart : t.resolve start = .ok start.place)
    (hdir : t.get? start.place = some (.item .directory))
    (hnone : t.get? (start.place ++ names) = none) (hnames : ∀ n ∈ start.place ++ names, IsName n)
    (hholds : (t.put (start.place ++ names) (.item (.file content))).holds
      (start.below names) = true) :
    ∃ before after, t.filesBelow start = before ++ after ∧
      (t.put (start.place ++ names) (.item (.file content))).filesBelow start =
        before ++ names :: after := by
  have h : Beside (start.place ++ names) content t
      (t.put (start.place ++ names) (.item (.file content))) := .of_put hnone
  have hu := h.unlinked ht
  have hbelow : ∀ n ∈ names, IsName n := fun n hn => hnames n (List.mem_append_right _ hn)
  obtain ⟨c, cs, rfl⟩ := List.exists_cons_of_ne_nil hne
  -- the way to the file goes through directories
  have hdirs : ∀ xs y ys, c :: cs = xs ++ y :: ys →
      (t.put (start.place ++ c :: cs) (.item (.file content))).get? (start.place ++ xs) =
        some (.item .directory) := by
    intro xs y ys e
    obtain ⟨place, i, hr, -⟩ := holds_iff.mp hholds
    have hpath : (Route.of (start.below (c :: cs)).text).names =
        ((Route.of start.text).names ++ xs) ++ y :: ys := by
      rw [names_below hbelow, e, List.append_assoc]
    have hxs : ∀ n ∈ xs, n ≠ "." ∧ n ≠ ".." := by
      intro n hn
      have hname := hbelow n (by rw [e]; exact List.mem_append_left _ hn)
      exact ⟨hname.not_here, hname.not_up⟩
    have hd := directory_of_resolve hu hr hpath
    rw [landing_append, ← Path.place_eq_landing, landing_plain hxs] at hd
    exact hd
  have hwalk : ∃ before after, t.walk start [start.place] start.place [] = before ++ after ∧
      (t.put (start.place ++ c :: cs) (.item (.file content))).walk start [start.place]
        start.place [] = before ++ ([] ++ c :: cs) :: after :=
    walk_put_on ht hp hnone hnames (by simp) (by simp) rfl hdirs hholds
  obtain ⟨before, after, hold, hnew⟩ := hwalk
  refine ⟨before, after, ?_, ?_⟩
  · unfold filesBelow
    simp only [hstart, hdir]
    exact hold
  · unfold filesBelow
    simp only [h.grows.resolve hstart, h.grows.directory _ hdir]
    exact hnew

end WalkPut

end FileTree
end Disk
end ModelStubs
