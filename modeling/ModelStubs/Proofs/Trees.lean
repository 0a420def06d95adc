/-
# Trees without links

In a tree without links a path leads where its names say. What a run makes only adds
to the tree: directories stay directories and files stay files (`FileTree.Grows`), so
a path that led somewhere still leads there. Making directories changes no file, and
writing a text changes one.

Key definitions: `Disk.FileTree.Unlinked`, `Disk.FileTree.Grows`,
`Disk.FileTree.MoreDirectories`, `Disk.FileTree.Leads`, `Disk.FileTree.Writable`,
`Disk.FileTree.Stored`.
Key theorems: `Disk.FileTree.follow_eq_ok_iff`, `Disk.FileTree.Grows.resolve`,
`Disk.FileTree.resolve_join_injective`, `Disk.FileTree.adds_makeDirectories`,
`Disk.FileTree.writeText_eq_ok_iff`, `Disk.FileTree.stored_of_writeText`.
-/
import ModelStubs.Proofs.Requests
import ModelStubs.Proofs.Routes

namespace ModelStubs
namespace Disk
namespace FileTree

open Output (PlainParts pathOf)

/-- No place holds a link. -/
def Unlinked (t : FileTree) : Prop := ∀ place target, t.get? place ≠ some (.link target)

/-- A place holds a file with the given content. -/
def HasFile (t : FileTree) (place : Names) (content : Content) : Prop :=
  t.get? place = some (.item (.file content))

/-- Directories stay directories, files stay files, and the links are the same. -/
structure Grows (t u : FileTree) : Prop where
  directory : ∀ place, t.get? place = some (.item .directory) →
    u.get? place = some (.item .directory)
  file : ∀ place content, t.HasFile place content → ∃ content', u.HasFile place content'
  link : ∀ place target, u.get? place = some (.link target) ↔ t.get? place = some (.link target)

/-- Nothing has changed but for directories at places where nothing was. -/
def MoreDirectories (t u : FileTree) : Prop :=
  ∀ place, u.get? place = t.get? place ∨
    t.get? place = none ∧ u.get? place = some (.item .directory)

namespace Grows

theorem refl (t : FileTree) : Grows t t :=
  ⟨fun _ h => h, fun _ c h => ⟨c, h⟩, fun _ _ => Iff.rfl⟩

theorem trans {t u v : FileTree} (h : Grows t u) (h' : Grows u v) : Grows t v := by
  refine ⟨fun place hd => h'.directory place (h.directory place hd), ?_, ?_⟩
  · intro place c hc
    obtain ⟨c', hc'⟩ := h.file place c hc
    exact h'.file place c' hc'
  · intro place target
    rw [h'.link, h.link]

/-- A tree does not get links by growing. -/
theorem unlinked {t u : FileTree} (h : Grows t u) (ht : t.Unlinked) : u.Unlinked :=
  fun place target hu => ht place target ((h.link place target).mp hu)

/-- An item is found where there was one. -/
theorem item {t u : FileTree} (h : Grows t u) {place : Names} {i : Item}
    (hi : t.get? place = some (.item i)) : ∃ i', u.get? place = some (.item i') := by
  cases i with
  | directory => exact ⟨_, h.directory place hi⟩
  | file c =>
    obtain ⟨c', hc'⟩ := h.file place c hi
    exact ⟨_, hc'⟩

end Grows

namespace MoreDirectories

theorem refl (t : FileTree) : MoreDirectories t t := fun _ => .inl rfl

theorem trans {t u v : FileTree} (h : MoreDirectories t u) (h' : MoreDirectories u v) :
    MoreDirectories t v := by
  intro place
  rcases h place with h | ⟨hn, hd⟩
  · rw [← h]
    exact h' place
  · rcases h' place with h' | ⟨hn', -⟩
    · exact .inr ⟨hn, by rw [h', hd]⟩
    · rw [hd] at hn'
      cases hn'

/-- What stood somewhere stands there still. -/
theorem kept {t u : FileTree} (h : MoreDirectories t u) {place : Names} {n : Node}
    (hn : t.get? place = some n) : u.get? place = some n := by
  rcases h place with h | ⟨hnone, -⟩
  · rw [h, hn]
  · rw [hn] at hnone
    cases hnone

/-- There is no other file. -/
theorem hasFile_iff {t u : FileTree} (h : MoreDirectories t u) {place : Names} {c : Content} :
    u.HasFile place c ↔ t.HasFile place c := by
  refine ⟨fun hu => ?_, h.kept⟩
  rcases h place with h | ⟨-, hd⟩
  · rw [HasFile, ← h]
    exact hu
  · rw [HasFile, hd] at hu
    cases hu

theorem grows {t u : FileTree} (h : MoreDirectories t u) : Grows t u := by
  refine ⟨fun _ => h.kept, fun _ c hc => ⟨c, h.kept hc⟩, fun place target => ?_⟩
  refine ⟨fun hu => ?_, h.kept⟩
  rcases h place with h | ⟨-, hd⟩
  · rw [← h, hu]
  · rw [hd] at hu
    cases hu

end MoreDirectories

/-- What stands at a place below the top is an entry. -/
theorem mem_entries_of_get? {t : FileTree} {place : Names} {n : Node} (hne : place ≠ [])
    (h : t.get? place = some n) : (place, n) ∈ t.entries := by
  cases place with
  | nil => exact absurd rfl hne
  | cons x xs =>
    have h : t.entries.lookup (x :: xs) = some n := h
    obtain ⟨before, after, he, -⟩ := List.lookup_eq_some_iff.mp h
    rw [he]
    exact List.mem_append_right _ List.mem_cons_self

/-- A tree without links among its entries has none. -/
theorem unlinked_of_entries {t : FileTree} (h : ∀ e ∈ t.entries, ∃ i, e.2 = .item i) :
    t.Unlinked := by
  intro place target hl
  by_cases hne : place = []
  · subst hne
    cases hl
  · obtain ⟨i, hi⟩ := h _ (mem_entries_of_get? hne hl)
    cases hi

/-! ### Following names -/

/-- A name that is looked up in the given directory. -/
structure Enters (t : FileTree) (base : Names) (n : String) : Prop where
  directory : t.get? base = some (.item .directory)
  not_here : n ≠ "."
  not_up : n ≠ ".."
  short : n.utf8ByteSize ≤ nameLimit

/-- From `base` on the names lead to `place`, and of `links` links that may be followed
`rest` are left. -/
inductive Leads (t : FileTree) : (links : Nat) → (base : Names) → List String →
    (rest : Nat) → (place : Names) → Prop
  | done {links : Nat} {base : Names} : Leads t links base [] links base
  | here {links rest : Nat} {base place : Names} {ns : List String} :
      t.get? base = some (.item .directory) → Leads t links base ns rest place →
      Leads t links base ("." :: ns) rest place
  | up {links rest : Nat} {base place : Names} {ns : List String} :
      t.get? base = some (.item .directory) → Leads t links base.dropLast ns rest place →
      Leads t links base (".." :: ns) rest place
  | item {links rest : Nat} {base place : Names} {n : String} {ns : List String} {i : Item} :
      t.Enters base n → t.get? (base ++ [n]) = some (.item i) →
      Leads t links (base ++ [n]) ns rest place → Leads t links base (n :: ns) rest place
  | link {links rest : Nat} {base place : Names} {n target : String} {ns : List String} :
      t.Enters base n → t.get? (base ++ [n]) = some (.link target) →
      Leads t links (startOf base target) ((Route.of target).steps ++ ns) rest place →
      Leads t (links + 1) base (n :: ns) rest place

/-- `FileTree.follow` finds exactly the places that names lead to. -/
theorem follow_eq_ok_iff {t : FileTree} {links rest : Nat} {base place : Names}
    {names : List String} :
    t.follow links base names = .ok (place, rest) ↔ t.Leads links base names rest place := by
  constructor
  · intro h
    fun_induction t.follow links base names with
    | case1 => cases h; exact .done
    | case2 => cases h
    | case3 links base ns hd ih => exact .here (Classical.not_not.mp hd) (ih h)
    | case4 links base ns hd _ ih => exact .up (Classical.not_not.mp hd) (ih h)
    | case5 => cases h
    | case6 => cases h
    | case7 => cases h
    | case8 base n ns hd h1 h2 h3 target hn links ih =>
      exact .link ⟨Classical.not_not.mp hd, h1, h2, Nat.le_of_not_lt h3⟩ hn (ih h)
    | case9 links base n ns hd h1 h2 h3 node hl hn ih =>
      cases node with
      | link target => exact absurd rfl (hl target)
      | item i => exact .item ⟨Classical.not_not.mp hd, h1, h2, Nat.le_of_not_lt h3⟩ hn (ih h)
  · intro h
    induction h with
    | done => rw [follow]
    | here hd _ ih => rw [follow, if_neg (Classical.not_not.mpr hd), if_pos rfl, ih]
    | up hd _ ih =>
      rw [follow, if_neg (Classical.not_not.mpr hd), if_neg (by decide), if_pos rfl, ih]
    | item he hi _ ih =>
      rw [follow, if_neg (Classical.not_not.mpr he.directory), if_neg he.not_here,
        if_neg he.not_up, if_neg (Nat.not_lt.mpr he.short), hi]
      exact ih
    | link he hl _ ih =>
      rw [follow, if_neg (Classical.not_not.mpr he.directory), if_neg he.not_here,
        if_neg he.not_up, if_neg (Nat.not_lt.mpr he.short), hl]
      exact ih

namespace Leads

/-- Names behind others are followed from where those lead to. -/
theorem append {t : FileTree} {links mid rest : Nat} {base place place' : Names}
    {xs ys : List String} (h : t.Leads links base xs mid place)
    (h' : t.Leads mid place ys rest place') : t.Leads links base (xs ++ ys) rest place' := by
  induction h with
  | done => exact h'
  | here hd _ ih => exact .here hd (ih h')
  | up hd _ ih => exact .up hd (ih h')
  | item he hi _ ih => exact .item he hi (ih h')
  | link he hl _ ih =>
    have ih := ih h'
    rw [List.append_assoc] at ih
    exact .link he hl ih

/-- The names in front lead somewhere by themselves. -/
theorem split {t : FileTree} {links rest : Nat} {base place : Names} {names : List String}
    (h : t.Leads links base names rest place) : ∀ {xs ys : List String}, names = xs ++ ys →
    ∃ mid dir, t.Leads links base xs mid dir ∧ t.Leads mid dir ys rest place := by
  induction h with
  | done =>
    intro xs ys e
    obtain ⟨rfl, rfl⟩ := List.append_eq_nil_iff.mp e.symm
    exact ⟨_, _, .done, .done⟩
  | @here links rest base place ns hd h ih =>
    rintro (_ | ⟨x, xs⟩) ys e
    · rw [List.nil_append] at e
      exact ⟨links, base, .done, e ▸ .here hd h⟩
    · cases e
      obtain ⟨mid, dir, h1, h2⟩ := ih rfl
      exact ⟨mid, dir, .here hd h1, h2⟩
  | @up links rest base place ns hd h ih =>
    rintro (_ | ⟨x, xs⟩) ys e
    · rw [List.nil_append] at e
      exact ⟨links, base, .done, e ▸ .up hd h⟩
    · cases e
      obtain ⟨mid, dir, h1, h2⟩ := ih rfl
      exact ⟨mid, dir, .up hd h1, h2⟩
  | @item links rest base place n ns i he hi h ih =>
    rintro (_ | ⟨x, xs⟩) ys e
    · rw [List.nil_append] at e
      exact ⟨links, base, .done, e ▸ .item he hi h⟩
    · cases e
      obtain ⟨mid, dir, h1, h2⟩ := ih rfl
      exact ⟨mid, dir, .item he hi h1, h2⟩
  | @link links rest base place n target ns he hl h ih =>
    rintro (_ | ⟨x, xs⟩) ys e
    · rw [List.nil_append] at e
      exact ⟨links + 1, base, .done, e ▸ .link he hl h⟩
    · cases e
      obtain ⟨mid, dir, h1, h2⟩ := ih (List.append_assoc _ _ _).symm
      exact ⟨mid, dir, .link he hl h1, h2⟩

/-- A tree that grows keeps every way. -/
theorem grows {t u : FileTree} (hg : Grows t u) {links rest : Nat} {base place : Names}
    {names : List String} (h : t.Leads links base names rest place) :
    u.Leads links base names rest place := by
  induction h with
  | done => exact .done
  | here hd _ ih => exact .here (hg.directory _ hd) ih
  | up hd _ ih => exact .up (hg.directory _ hd) ih
  | item he hi _ ih =>
    obtain ⟨i', hi'⟩ := hg.item hi
    exact .item { he with directory := hg.directory _ he.directory } hi' ih
  | link he hl _ ih =>
    exact .link { he with directory := hg.directory _ he.directory } ((hg.link _ _).mpr hl) ih

/-- Without links the number of links that may be followed stays. -/
theorem rest_eq {t : FileTree} (ht : t.Unlinked) {links rest : Nat} {base place : Names}
    {names : List String} (h : t.Leads links base names rest place) : rest = links := by
  induction h with
  | done => rfl
  | here _ _ ih => exact ih
  | up _ _ ih => exact ih
  | item _ _ _ ih => exact ih
  | link _ hl _ _ => exact absurd hl (ht _ _)

/-- Without links a way that goes neither up nor in place leads below its start. -/
theorem place_eq {t : FileTree} (ht : t.Unlinked) {links rest : Nat} {base place : Names}
    {names : List String} (h : t.Leads links base names rest place)
    (hn : ∀ n ∈ names, n ≠ "." ∧ n ≠ "..") : place = base ++ names := by
  induction h with
  | done => rw [List.append_nil]
  | here => exact absurd rfl (hn "." List.mem_cons_self).1
  | up => exact absurd rfl (hn ".." List.mem_cons_self).2
  | item _ _ _ ih =>
    rw [ih fun n hm => hn n (List.mem_cons_of_mem _ hm), List.append_assoc, List.singleton_append]
  | link _ hl _ _ => exact absurd hl (ht _ _)

/-- Names lead to one place. -/
theorem unique {t : FileTree} {links rest rest' : Nat} {base place place' : Names}
    {names : List String} (h : t.Leads links base names rest place)
    (h' : t.Leads links base names rest' place') : place = place' := by
  have e := (follow_eq_ok_iff.mpr h).symm.trans (follow_eq_ok_iff.mpr h')
  cases e
  rfl

/-- Without links a way that stays in place leads to its start. -/
theorem in_place {t : FileTree} (ht : t.Unlinked) {links rest : Nat} {base place : Names}
    {names : List String} (h : t.Leads links base names rest place)
    (hn : ∀ n ∈ names, n = ".") : place = base := by
  induction h with
  | done => rfl
  | here _ _ ih => exact ih fun n hm => hn n (List.mem_cons_of_mem _ hm)
  | up => exact absurd (hn ".." List.mem_cons_self) (by decide)
  | item he _ _ _ => exact absurd (hn _ List.mem_cons_self) he.not_here
  | link _ hl _ _ => exact absurd hl (ht _ _)

/-- Without links a last name that is not special is entered from a directory. -/
theorem last {t : FileTree} (ht : t.Unlinked) {links rest : Nat} {base place : Names}
    {names : List String} {n : String} (h : t.Leads links base (names ++ [n]) rest place)
    (hn : n ≠ "." ∧ n ≠ "..") : ∃ dir, t.Leads links base names links dir ∧ place = dir ++ [n] := by
  obtain ⟨mid, dir, h1, h2⟩ := h.split rfl
  have hp := h2.place_eq ht fun m hm => by
    rw [List.mem_singleton.mp hm]
    exact hn
  have hr := h1.rest_eq ht
  exact ⟨dir, hr ▸ h1, hp⟩

end Leads

/-! ### Where paths lead -/

theorem resolve_eq_ok_iff {t : FileTree} {p : Path} {place : Names} :
    t.resolve p = .ok place ↔
      ∃ r rest, routeOf p = .ok r ∧ t.Leads linkLimit [] r.steps rest place := by
  unfold resolve
  constructor
  · intro h
    split at h
    · cases h
    · next r hr =>
      split at h
      · cases h
      · next place' rest hf =>
        cases h
        exact ⟨r, rest, hr, follow_eq_ok_iff.mp hf⟩
  · rintro ⟨r, rest, hr, hl⟩
    simp only [hr, follow_eq_ok_iff.mpr hl]

/-- A path that led somewhere still leads there. -/
theorem Grows.resolve {t u : FileTree} (h : Grows t u) {p : Path} {place : Names}
    (hp : t.resolve p = .ok place) : u.resolve p = .ok place := by
  obtain ⟨r, rest, hr, hl⟩ := resolve_eq_ok_iff.mp hp
  exact resolve_eq_ok_iff.mpr ⟨r, rest, hr, hl.grows h⟩

theorem partNames_plain {parts : List (List Char)} (h : PlainParts parts) :
    ∀ n ∈ partNames parts, n ≠ "." ∧ n ≠ ".." := by
  intro n hn
  obtain ⟨part, hp, rfl⟩ := List.mem_map.mp hn
  refine ⟨fun e => (h.2 part hp).ne_here ?_, fun e => (h.2 part hp).ne_up ?_⟩
  · rw [← String.toList_ofList (l := part), e]
    rfl
  · rw [← String.toList_ofList (l := part), e]
    rfl

/-- Without links a path of parts leads to the parts below its directory. -/
theorem resolve_join {t : FileTree} (ht : t.Unlinked) {root : Path} {parts : List (List Char)}
    (h : PlainParts parts) {place : Names}
    (hp : t.resolve (root.join (pathOf parts)) = .ok place) :
    ∃ dir, t.Leads linkLimit [] (Route.of root.text).names linkLimit dir ∧
      place = dir ++ partNames parts := by
  obtain ⟨r, rest, hr, hl⟩ := resolve_eq_ok_iff.mp hp
  rw [routeOf_eq_ok hr, route_join root h] at hl
  obtain ⟨mid, dir, h1, h2⟩ := hl.split rfl
  have hm := h1.rest_eq ht
  exact ⟨dir, hm ▸ h1, h2.place_eq ht (partNames_plain h)⟩

/-- Below one directory different parts lead to different places. -/
theorem resolve_join_injective {t : FileTree} (ht : t.Unlinked) {root : Path}
    {ps qs : List (List Char)} (hp : PlainParts ps) (hq : PlainParts qs) {place : Names}
    (h : t.resolve (root.join (pathOf ps)) = .ok place)
    (h' : t.resolve (root.join (pathOf qs)) = .ok place) : ps = qs := by
  obtain ⟨dir, hd, rfl⟩ := resolve_join ht hp h
  obtain ⟨dir', hd', e⟩ := resolve_join ht hq h'
  rw [hd.unique hd'] at e
  exact partNames_injective (List.append_cancel_left e)

theorem status_eq_ok_iff {t : FileTree} {p : Path} {i : Item} :
    t.status p = .ok i ↔ ∃ place, t.resolve p = .ok place ∧ t.get? place = some (.item i) := by
  unfold status
  constructor
  · intro h
    split at h
    · cases h
    · next place hr =>
      split at h
      · next hi =>
        cases h
        exact ⟨place, hr, hi⟩
      · cases h
  · rintro ⟨place, hr, hi⟩
    simp only [hr, hi]

/-- What can be read is the text of a file. -/
theorem readText_eq_ok_iff {t : FileTree} {p : Path} {s : String} :
    t.readText p = .ok s ↔ ∃ place, t.resolve p = .ok place ∧ t.HasFile place (.text s) := by
  have hiff : t.readText p = .ok s ↔ t.status p = .ok (.file (.text s)) := by
    unfold readText
    constructor
    · intro h
      split at h
      · cases h
      · next hs => cases h; exact hs
      · cases h
      · cases h
    · intro h
      rw [h]
  rw [hiff, status_eq_ok_iff]
  rfl

theorem holds_iff {t : FileTree} {p : Path} : t.holds p = true ↔
    ∃ place i, t.resolve p = .ok place ∧ t.get? place = some (.item i) := by
  unfold holds
  constructor
  · intro h
    cases hs : t.status p with
    | error e =>
      rw [hs] at h
      cases h
    | ok i =>
      obtain ⟨place, hp⟩ := status_eq_ok_iff.mp hs
      exact ⟨place, i, hp⟩
  · rintro ⟨place, i, hp⟩
    rw [status_eq_ok_iff.mpr ⟨place, hp⟩]
    rfl

/-- From `base` on the names go down one by one, each of them to an item. -/
def descends (t : FileTree) : Names → List String → Bool
  | _, [] => true
  | base, n :: ns => t.get? base == some (.item .directory) && n != "." && n != ".." &&
    decide (n.utf8ByteSize ≤ nameLimit) &&
    match t.get? (base ++ [n]) with
    | some (.item _) => t.descends (base ++ [n]) ns
    | _ => false

/-- Names that go down lead to the place below. -/
theorem leads_of_descends {t : FileTree} {links : Nat} : ∀ {ns : List String} {base : Names},
    t.descends base ns = true → t.Leads links base ns links (base ++ ns)
  | [], base, _ => by
    rw [List.append_nil]
    exact .done
  | n :: ns, base, h => by
    simp only [descends, Bool.and_eq_true, beq_iff_eq, bne_iff_ne, decide_eq_true_eq] at h
    obtain ⟨⟨⟨⟨hd, hhere⟩, hup⟩, hshort⟩, h⟩ := h
    split at h
    · next i hi =>
      have hl : t.Leads links _ ns links _ := leads_of_descends h
      rw [List.append_assoc, List.singleton_append] at hl
      exact .item ⟨hd, hhere, hup, hshort⟩ hi hl
    · cases h

/-- A path whose names go down leads to the place under its names. -/
theorem resolve_of_descends {t : FileTree} {p : Path} {names : Names}
    (hr : routeOf p = .ok ⟨names, false⟩) (h : t.descends [] names = true) :
    t.resolve p = .ok names := by
  have hl : t.Leads linkLimit [] names linkLimit _ := leads_of_descends h
  rw [List.nil_append] at hl
  exact resolve_eq_ok_iff.mpr ⟨⟨names, false⟩, linkLimit, hr, hl⟩

/-! ### New directories -/

theorem getLast?_eq_some {names : List String} {last : String} (h : names.getLast? = some last) :
    names = names.dropLast ++ [last] := by
  obtain ⟨init, rfl⟩ := List.getLast?_eq_some_iff.mp h
  rw [List.dropLast_concat]

theorem followParent_eq_ok {t : FileTree} {links links' : Nat} {base place : Names}
    {names : List String} {last last' : String}
    (h : t.followParent links base names last = .ok (place, last', links')) :
    t.Leads links base names links' place ∧ t.get? place = some (.item .directory) ∧
      last' = last := by
  unfold followParent at h
  split at h
  · cases h
  · next place' links'' hf =>
    split at h
    · cases h
    · next hd =>
      cases h
      exact ⟨follow_eq_ok_iff.mp hf, Classical.not_not.mp hd, rfl⟩

/-- A directory is made where nothing was. -/
theorem newDirectory_eq_ok {t : FileTree} {r : Route} {place : Names}
    (h : t.newDirectory r = .ok place) : place ≠ [] ∧ t.get? place = none := by
  unfold newDirectory at h
  split at h
  · cases h
  · split at h
    · cases h
    · split at h
      · cases h
      · split at h
        · cases h
        · split at h
          · next hn =>
            cases h
            exact ⟨by simp, hn⟩
          · cases h

theorem moreDirectories_put {t : FileTree} {place : Names} (hne : place ≠ [])
    (hn : t.get? place = none) : MoreDirectories t (t.put place (.item .directory)) := by
  intro q
  by_cases hq : q = []
  · subst hq
    exact .inl rfl
  · rw [get?_put t _ hq]
    split
    · next e =>
      subst e
      exact .inr ⟨hn, rfl⟩
    · exact .inl rfl

theorem moreDirectories_makeDirectory {t u : FileTree} {p : Path} {result : Except Error Unit}
    (h : t.makeDirectory p = (result, u)) : MoreDirectories t u := by
  unfold makeDirectory at h
  split at h
  · cases h; exact .refl t
  · split at h
    · cases h; exact .refl t
    · next place hp =>
      cases h
      obtain ⟨hne, hn⟩ := newDirectory_eq_ok hp
      exact moreDirectories_put hne hn

/-- Whatever its answer, the request changes nothing but for new directories. -/
def Adds {α : Type} (x : StateM FileTree α) : Prop := ∀ t, MoreDirectories t (x.run t).2

theorem adds_compositional : Compositional Adds where
  pure := fun _ t => .refl t
  bind := fun h h' t => (h t).trans (h' _ _)

/-- Making directories changes no file, also when it fails half-way. -/
theorem adds_makeDirectories (ps : List Path) : Adds (makeDirectories ps) :=
  adds_compositional.makeDirectories (fun _ _ _ => moreDirectories_makeDirectory rfl)
    fun _ _ t => .refl t

theorem isDirectory_iff {t : FileTree} {p : Path} : t.isDirectory p = true ↔
    ∃ place, t.resolve p = .ok place ∧ t.get? place = some (.item .directory) := by
  rw [← status_eq_ok_iff]
  unfold isDirectory
  constructor
  · intro h
    split at h
    · next hs => exact hs
    · cases h
  · intro h
    rw [h]

/-- A directory that was there still is. -/
theorem Grows.isDirectory {t u : FileTree} (h : Grows t u) {p : Path}
    (hp : t.isDirectory p = true) : u.isDirectory p = true := by
  obtain ⟨place, hr, hd⟩ := isDirectory_iff.mp hp
  exact isDirectory_iff.mpr ⟨place, h.resolve hr, h.directory place hd⟩

theorem Leads.start {t : FileTree} {links rest : Nat} {base place : Names} {n : String}
    {ns : List String} (h : t.Leads links base (n :: ns) rest place) :
    t.get? base = some (.item .directory) ∧ (n = "." ∨ n = ".." ∨
      n.utf8ByteSize ≤ nameLimit ∧ ∃ node, t.get? (base ++ [n]) = some node) := by
  cases h with
  | here hd => exact ⟨hd, .inl rfl⟩
  | up hd => exact ⟨hd, .inr (.inl rfl)⟩
  | item he hi => exact ⟨he.directory, .inr (.inr ⟨he.short, _, hi⟩)⟩
  | link he hl => exact ⟨he.directory, .inr (.inr ⟨he.short, _, hl⟩)⟩

/-- A directory that is there is not made again. -/
theorem makeDirectory_of_isDirectory {t : FileTree} {p : Path} (h : t.isDirectory p = true) :
    t.makeDirectory p = (.error .alreadyExists, t) := by
  obtain ⟨place, hr, -⟩ := isDirectory_iff.mp h
  obtain ⟨r, rest, hroute, hl⟩ := resolve_eq_ok_iff.mp hr
  have hnew : t.newDirectory r = .error .alreadyExists := by
    unfold newDirectory
    cases hlast : r.names.getLast? with
    | none => rfl
    | some last =>
      have hsteps : ∃ more, r.steps = r.names.dropLast ++ last :: more := by
        unfold Route.steps
        split
        · refine ⟨["."], ?_⟩
          conv => lhs; rw [getLast?_eq_some hlast]
          simp
        · exact ⟨[], getLast?_eq_some hlast⟩
      obtain ⟨more, hmore⟩ := hsteps
      obtain ⟨mid, dir, h1, h2⟩ := hl.split hmore
      obtain ⟨hd, hlast⟩ := h2.start
      simp only [followParent, follow_eq_ok_iff.mpr h1, hd, ne_eq, not_true_eq_false, if_false]
      by_cases hspecial : last = "." ∨ last = ".."
      · rw [if_pos hspecial]
      · obtain ⟨hhere, hup⟩ := not_or.mp hspecial
        obtain ⟨hshort, node, hnode⟩ := (hlast.resolve_left hhere).resolve_left hup
        rw [if_neg hspecial, if_neg (Nat.not_lt.mpr hshort), hnode]
  unfold makeDirectory
  simp only [hroute, hnew]

/-- Nothing is made above a directory that is there. -/
theorem makeDirectories_of_isDirectory {t : FileTree} {p : Path} (h : t.isDirectory p = true)
    (above : List Path) :
    (makeDirectories (m := StateM FileTree) (p :: above)).run t = (.ok (), t) := by
  have hmake : (Access.makeDirectory (m := StateM FileTree) p).run t =
      (.error .alreadyExists, t) := makeDirectory_of_isDirectory h
  have hunless : (unlessDirectory (m := StateM FileTree) p .alreadyExists).run t = (.ok (), t) := by
    have hthere : (Access.isDirectory (m := StateM FileTree) p).run t = (true, t) := by
      rw [← h]
      rfl
    unfold unlessDirectory
    rw [if_pos rfl, StateT.run_bind, hthere]
    rfl
  unfold makeDirectories
  split
  · rfl
  · rw [StateT.run_bind, hmake]
    exact hunless

/-- Names behind others are followed from where those lead to. -/
theorem Leads.follow_append {t : FileTree} {links mid : Nat} {base dir : Names}
    {xs : List String} (h : t.Leads links base xs mid dir) (ys : List String) :
    t.follow links base (xs ++ ys) = t.follow mid dir ys := by
  induction h with
  | done => rfl
  | here hd _ ih =>
    rw [List.cons_append, follow, if_neg (Classical.not_not.mpr hd), if_pos rfl, ih]
  | up hd _ ih =>
    rw [List.cons_append, follow, if_neg (Classical.not_not.mpr hd), if_neg (by decide),
      if_pos rfl, ih]
  | item he hi _ ih =>
    rw [List.cons_append, follow, if_neg (Classical.not_not.mpr he.directory), if_neg he.not_here,
      if_neg he.not_up, if_neg (Nat.not_lt.mpr he.short), hi]
    exact ih
  | link he hl _ ih =>
    rw [List.cons_append, follow, if_neg (Classical.not_not.mpr he.directory), if_neg he.not_here,
      if_neg he.not_up, if_neg (Nat.not_lt.mpr he.short), hl]
    rw [List.append_assoc] at ih
    exact ih

/-- A directory can be made in a directory that is there. -/
theorem makeDirectory_of_descends {t : FileTree} {p : Path} {init : Names} {last : String}
    (hr : routeOf p = .ok ⟨init ++ [last], false⟩) (h : t.descends [] init = true)
    (he : t.Enters init last) (hfree : t.get? (init ++ [last]) = none) :
    t.makeDirectory p = (.ok (), t.put (init ++ [last]) (.item .directory)) := by
  have hlead : t.Leads linkLimit [] init linkLimit init := leads_of_descends h
  have hparent : t.followParent linkLimit [] init last = .ok (init, last, linkLimit) := by
    simp only [followParent, follow_eq_ok_iff.mpr hlead, he.directory, ne_eq, not_true_eq_false,
      if_false]
  have hspecial : ¬ (last = "." ∨ last = "..") := not_or.mpr ⟨he.not_here, he.not_up⟩
  have hnew : t.newDirectory ⟨init ++ [last], false⟩ = .ok (init ++ [last]) := by
    simp only [newDirectory, List.getLast?_concat, List.dropLast_concat, hparent, if_neg hspecial,
      if_neg (Nat.not_lt.mpr he.short), hfree]
  simp only [makeDirectory, hr, hnew]

/-- A directory is not made if one above it is missing. -/
theorem makeDirectory_of_missing {t : FileTree} {p : Path} {init rest : Names} {n last : String}
    (hr : routeOf p = .ok ⟨init ++ n :: rest ++ [last], false⟩) (h : t.descends [] init = true)
    (he : t.Enters init n) (hmissing : t.get? (init ++ [n]) = none) :
    t.makeDirectory p = (.error .notFound, t) := by
  have hlead : t.Leads linkLimit [] init linkLimit init := leads_of_descends h
  have hfollow : t.follow linkLimit [] (init ++ n :: rest) = .error .notFound := by
    rw [hlead.follow_append, follow, if_neg (Classical.not_not.mpr he.directory),
      if_neg he.not_here, if_neg he.not_up, if_neg (Nat.not_lt.mpr he.short), hmissing]
  have hnew : t.newDirectory ⟨init ++ n :: rest ++ [last], false⟩ = .error .notFound := by
    simp only [newDirectory, List.getLast?_concat, List.dropLast_concat, followParent, hfollow]
  simp only [makeDirectory, hr, hnew]

/-- A directory that can be made needs nothing above it to be made. -/
theorem makeDirectories_made {t u : FileTree} {p : Path} {above : List Path} (hp : p.text ≠ "")
    (h : t.makeDirectory p = (.ok (), u)) :
    (makeDirectories (m := StateM FileTree) (p :: above)).run t = (.ok (), u) := by
  have hmake : (Access.makeDirectory (m := StateM FileTree) p).run t = (.ok (), u) := h
  unfold makeDirectories
  rw [if_neg (by simpa using hp), StateT.run_bind, hmake]
  rfl

/-- A directory is made after those above it that were missing. -/
theorem makeDirectories_missing {t u v : FileTree} {p : Path} {above : List Path}
    (hp : p.text ≠ "") (h : t.makeDirectory p = (.error .notFound, t))
    (habove : (makeDirectories (m := StateM FileTree) above).run t = (.ok (), u))
    (hmade : u.makeDirectory p = (.ok (), v)) :
    (makeDirectories (m := StateM FileTree) (p :: above)).run t = (.ok (), v) := by
  have hfirst : (Access.makeDirectory (m := StateM FileTree) p).run t =
      (.error .notFound, t) := h
  have hsecond : (Access.makeDirectory (m := StateM FileTree) p).run u = (.ok (), v) := hmade
  unfold makeDirectories
  rw [if_neg (by simpa using hp), StateT.run_bind, hfirst]
  show (StateT.run (makeDirectories above >>= _) t) = _
  rw [StateT.run_bind, habove]
  show (StateT.run (Access.makeDirectory p >>= _) u) = _
  rw [StateT.run_bind, hsecond]
  rfl

/-! ### Written texts -/

/-- Without links a file is written below the directory that all names but the last
lead to, under the last name, where nothing or a file stands. -/
theorem fileTarget_eq_ok {t : FileTree} (ht : t.Unlinked) {links hops : Nat} {base place : Names}
    {r : Route} (h : t.fileTarget links base r hops = .ok place) :
    ∃ dir last, r.names.getLast? = some last ∧ r.slash = false ∧
      t.Leads links base r.names.dropLast links dir ∧ t.Enters dir last ∧
      place = dir ++ [last] ∧ (t.get? place = none ∨ ∃ c, t.HasFile place c) := by
  cases hops with
  | zero => cases h
  | succ hops =>
    unfold fileTarget at h
    split at h
    · cases h
    · next last hlast =>
      split at h
      · cases h
      · next dir last' rest hp =>
        obtain ⟨hl, hd, rfl⟩ := followParent_eq_ok hp
        have hrest := hl.rest_eq ht
        subst hrest
        split at h
        · cases h
        · next hn =>
          obtain ⟨h1, h2, h3⟩ : last' ≠ "." ∧ last' ≠ ".." ∧ r.slash = false := by
            simpa using hn
          split at h
          · cases h
          · next hs =>
            have he : t.Enters dir last' := ⟨hd, h1, h2, Nat.le_of_not_lt hs⟩
            split at h
            · next hnone =>
              cases h
              exact ⟨dir, last', hlast, h3, hl, he, rfl, .inl hnone⟩
            · next c hc =>
              cases h
              exact ⟨dir, last', hlast, h3, hl, he, rfl, .inr ⟨c, hc⟩⟩
            · cases h
            · next target hlink => exact absurd hlink (ht _ _)

/-- The path names a file, or one that can be made, in a directory that is there. -/
inductive Writable (t : FileTree) (p : Path) : Names → Prop
  | intro {r : Route} {init dir : Names} {last : String} : routeOf p = .ok r → r.slash = false →
      r.names = init ++ [last] → t.Leads linkLimit [] init linkLimit dir → t.Enters dir last →
      (t.get? (dir ++ [last]) = none ∨ ∃ c, t.HasFile (dir ++ [last]) c) →
      Writable t p (dir ++ [last])

theorem writable_of_descends {t : FileTree} {p : Path} {init : Names} {last : String}
    (hr : routeOf p = .ok ⟨init ++ [last], false⟩) (h : t.descends [] init = true)
    (he : t.Enters init last)
    (hfree : t.get? (init ++ [last]) = none ∨ ∃ c, t.HasFile (init ++ [last]) c) :
    t.Writable p (init ++ [last]) :=
  .intro hr rfl rfl (leads_of_descends h) he hfree

/-- The place at the end of a route that can be entered is the target of a write. -/
theorem fileTarget_of_leads {t : FileTree} {links rest hops : Nat} {base init dir : Names}
    {r : Route} {last : String} (hslash : r.slash = false) (hnames : r.names = init ++ [last])
    (hl : t.Leads links base init rest dir) (he : t.Enters dir last)
    (hfree : t.get? (dir ++ [last]) = none ∨ ∃ c, t.HasFile (dir ++ [last]) c) :
    t.fileTarget links base r (hops + 1) = .ok (dir ++ [last]) := by
  have hparent : t.followParent links base r.names.dropLast last = .ok (dir, last, rest) := by
    rw [hnames, List.dropLast_concat, followParent, follow_eq_ok_iff.mpr hl]
    simp only [he.directory, ne_eq, not_true_eq_false, if_false]
  have hspecial : ¬ (last = "." ∨ last = ".." ∨ r.slash = true) := by
    rw [hslash]
    simp [he.not_here, he.not_up]
  unfold fileTarget
  rw [hnames, List.getLast?_concat]
  rw [hnames] at hparent
  simp only [hparent, if_neg hspecial, if_neg (Nat.not_lt.mpr he.short)]
  rcases hfree with hnone | ⟨c, hc⟩
  · rw [hnone]
  · rw [HasFile] at hc
    rw [hc]

/-- Without links a text can be written exactly to the paths that are writable. -/
theorem writeText_eq_ok_iff {t u : FileTree} (ht : t.Unlinked) {p : Path} {s : String} :
    t.writeText p s = (.ok (), u) ↔
      ∃ place, t.Writable p place ∧ u = t.put place (.item (.file (.text s))) := by
  unfold writeText
  constructor
  · intro h
    split at h
    · cases h
    · next r hr =>
      split at h
      · cases h
      · next place hplace =>
        cases h
        obtain ⟨dir, last, hlast, hslash, hl, he, rfl, hfree⟩ := fileTarget_eq_ok ht hplace
        exact ⟨_, .intro hr hslash (getLast?_eq_some hlast) hl he hfree, rfl⟩
  · rintro ⟨_, ⟨hr, hslash, hnames, hl, he, hfree⟩, rfl⟩
    simp only [hr, fileTarget_of_leads hslash hnames hl he hfree]

/-- After a file was written its path leads to a place with the text, and there is no
other file that is new or changed. -/
structure Stored (t u : FileTree) (file : Path) (text : String) (place : Names) : Prop where
  grows : Grows t u
  resolve : u.resolve file = .ok place
  text : u.HasFile place (.text text)
  others : ∀ q c, q ≠ place → (u.HasFile q c ↔ t.HasFile q c)

theorem get?_put_self {t : FileTree} {place : Names} (hne : place ≠ []) (n : Node) :
    (t.put place n).get? place = some n := by
  rw [get?_put t n hne, if_pos rfl]

theorem get?_put_of_ne {t : FileTree} {place q : Names} (hq : q ≠ place) (n : Node) :
    (t.put place n).get? q = t.get? q := by
  cases q with
  | nil => rfl
  | cons x xs => rw [get?_put t n (List.cons_ne_nil x xs), if_neg hq]

theorem grows_put {t : FileTree} {place : Names} {c : Content} (hne : place ≠ [])
    (h : t.get? place = none ∨ ∃ c, t.HasFile place c) :
    Grows t (t.put place (.item (.file c))) := by
  have hself := get?_put_self (t := t) hne (.item (.file c))
  have hfile : ∀ n, t.get? place = some n → ∃ c, n = .item (.file c) := by
    intro n hn
    rcases h with h | ⟨c, h⟩
    · rw [hn] at h
      cases h
    · rw [HasFile, hn] at h
      cases h
      exact ⟨c, rfl⟩
  refine ⟨fun q hq => ?_, fun q d hq => ?_, fun q target => ?_⟩
  · by_cases e : q = place
    · subst e
      obtain ⟨c, hc⟩ := hfile _ hq
      cases hc
    · rw [get?_put_of_ne e, hq]
  · by_cases e : q = place
    · subst e
      exact ⟨c, hself⟩
    · exact ⟨d, by rw [HasFile, get?_put_of_ne e]; exact hq⟩
  · by_cases e : q = place
    · subst e
      rw [hself]
      constructor
      · intro hl
        cases hl
      · intro hl
        obtain ⟨c, hc⟩ := hfile _ hl
        cases hc
    · rw [get?_put_of_ne e]

/-- A writable place is below the top. -/
theorem Writable.ne_nil {t : FileTree} {p : Path} {place : Names} (h : t.Writable p place) :
    place ≠ [] := by
  cases h
  simp

theorem Writable.free {t : FileTree} {p : Path} {place : Names} (h : t.Writable p place) :
    t.get? place = none ∨ ∃ c, t.HasFile place c := by
  cases h
  assumption

/-- A text that was put at a writable place is found there. -/
theorem Writable.stored {t : FileTree} {p : Path} {place : Names} (h : t.Writable p place)
    (s : String) : Stored t (t.put place (.item (.file (.text s)))) p s place := by
  have hg := grows_put (c := .text s) h.ne_nil h.free
  have hself := get?_put_self (t := t) h.ne_nil (.item (.file (.text s)))
  refine ⟨hg, ?_, hself, fun q c hq => ?_⟩
  · obtain ⟨hr, hslash, hnames, hl, he, -⟩ := h
    refine resolve_eq_ok_iff.mpr ⟨_, linkLimit, hr, ?_⟩
    rw [Route.steps, hslash, if_neg (by decide), hnames]
    refine (hl.grows hg).append (.item ?_ hself .done)
    exact { he with directory := hg.directory _ he.directory }
  · rw [HasFile, get?_put_of_ne hq]
    rfl

/-- A text that was written is found where it was written to. -/
theorem stored_of_writeText {t u : FileTree} (ht : t.Unlinked) {p : Path} {s : String}
    (h : t.writeText p s = (.ok (), u)) : ∃ place, Stored t u p s place := by
  obtain ⟨place, hw, rfl⟩ := (writeText_eq_ok_iff ht).mp h
  exact ⟨place, hw.stored s⟩

/-- A path stays writable when a file is written, to it or to another. -/
theorem Writable.put {t : FileTree} {p q : Path} {place other : Names} (h : t.Writable p place)
    (hq : t.Writable q other) (c : Content) :
    (t.put other (.item (.file c))).Writable p place := by
  have hg := grows_put (c := c) hq.ne_nil hq.free
  obtain ⟨hr, hslash, hnames, hl, he, hfree⟩ := h
  rename_i r init dir last
  refine .intro hr hslash hnames (hl.grows hg)
    { he with directory := hg.directory _ he.directory } ?_
  by_cases e : dir ++ [last] = other
  · refine .inr ⟨c, ?_⟩
    rw [HasFile, e, get?_put_self hq.ne_nil]
  · unfold HasFile
    rw [get?_put_of_ne e]
    exact hfree

/-- New directories before the write make no difference. -/
theorem Stored.after {t u v : FileTree} {file : Path} {text : String} {place : Names}
    (h : MoreDirectories t u) (hs : Stored u v file text place) :
    Stored t v file text place :=
  ⟨h.grows.trans hs.grows, hs.resolve, hs.text, fun q c hq => by
    rw [hs.others q c hq, h.hasFile_iff]⟩

/-! ### The name of a place -/

/-- Without links a place is named by the last name of its path that is not `.`, unless
that is `..`. -/
theorem getLast?_place {t : FileTree} (ht : t.Unlinked) {p : Path} {place : Names}
    (h : t.resolve p = .ok place) {xs dots : List String} {n : String}
    (hs : (Route.of p.text).names = xs ++ n :: dots) (hd : ∀ d ∈ dots, d = ".")
    (hn : n ≠ "." ∧ n ≠ "..") : place.getLast? = some n := by
  obtain ⟨r, rest, hr, hl⟩ := resolve_eq_ok_iff.mp h
  rw [routeOf_eq_ok hr] at hl
  have hsteps : ∃ more, (Route.of p.text).steps = (xs ++ [n]) ++ more ∧ ∀ d ∈ more, d = "." := by
    unfold Route.steps
    rw [hs]
    split
    · refine ⟨dots ++ ["."], by simp, fun d hm => ?_⟩
      rcases List.mem_append.mp hm with hm | hm
      · exact hd d hm
      · exact List.mem_singleton.mp hm
    · exact ⟨dots, by simp, hd⟩
  obtain ⟨more, hmore, hdots⟩ := hsteps
  obtain ⟨mid, place', h1, h2⟩ := hl.split hmore
  obtain ⟨dir, -, rfl⟩ := h1.last ht hn
  rw [h2.in_place ht hdots, List.getLast?_concat]

/-! ### Directories of files -/

/-- A walk through a directory of files finds them in the order of their names. -/
theorem walk_of_files {t : FileTree} {start : Path} {inside : List Names} {place shown : Names}
    (h : ∀ c n, (c, n) ∈ t.children place →
      (∃ x, n = .item (.file x)) ∧ t.holds (start.below (shown ++ [c])) = true) :
    t.walk start inside place shown = (t.children place).map fun x => shown ++ [x.1] := by
  have hattach := List.attach_map_val (l := t.children place) (f := fun x => shown ++ [x.1])
  rw [walk, ← hattach, List.map_eq_flatMap]
  congr 1
  funext ⟨⟨c, n⟩, hx⟩
  obtain ⟨⟨x, rfl⟩, hholds⟩ := h c n hx
  simp only [hholds, if_true]

/-- The files below a path that leads to a directory of files. -/
theorem filesBelow_of_files {t : FileTree} {p : Path} {place : Names}
    (hp : t.resolve p = .ok place) (hd : t.get? place = some (.item .directory))
    (h : ∀ c n, (c, n) ∈ t.children place →
      (∃ x, n = .item (.file x)) ∧ t.holds (p.child c) = true) :
    t.filesBelow p = (t.children place).map fun x => [x.1] := by
  unfold filesBelow
  simp only [hp, hd]
  exact walk_of_files h

end FileTree
end Disk
end ModelStubs
