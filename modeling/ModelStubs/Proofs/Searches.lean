/-
# The search for model files

A search finds the regular files at or below a directory whose names are a text that is not
empty and `.json`. Every search ends, and finds each file once, in the order of the paths by
the bytes of their components, in whatever order the entries of the tree are listed. Links
are followed; what a link leads to is found as a file, and a link that leads nowhere makes no
difference.

The system takes no path of 4096 bytes or more (`Disk.FileTree.pathLimit`). A file is passed over if
its path from the directory is as long as that, however short its place.

Key definitions: `Disk.FileTree.Admissible`, `Project.IsModelName`.
Key theorems: `Disk.FileTree.resolve_below`, `Disk.FileTree.mem_filesBelow_of_file`,
`Project.isModelFile_iff`, `Project.modelFiles_search`.
-/
import ModelStubs.Proofs.FoundFiles
import ModelStubs.Proofs.PathBytes

namespace ModelStubs
namespace Disk
namespace FileTree

/-! ### Trees that a system may hold -/

/-- Every place is listed once, stands in a directory and has names that a system takes. -/
structure Admissible (t : FileTree) : Prop where
  proper : t.Proper
  rooted : t.Rooted
  short : ∀ e ∈ t.entries, ∀ n ∈ e.1, n.utf8ByteSize ≤ nameLimit
  no_nul : ∀ e ∈ t.entries, ∀ n ∈ e.1, '\x00' ∉ n.toList

/-! ### Paths that the system takes -/

theorem routeOf_eq_ok_iff {p : Path} : routeOf p = .ok (Route.of p.text) ↔
    '\x00' ∉ p.text.toList ∧ p.text ≠ "" ∧ p.text.utf8ByteSize < pathLimit := by
  unfold routeOf
  split_ifs with hnul hempty hlong
  · simpa using fun h => absurd (by simpa using hnul) h
  · simp [String.isEmpty_iff.mp hempty]
  · simp [Nat.not_lt.mpr hlong]
  · simp_all

/-- The characters of a path below a directory. -/
theorem mem_text_below {ch : Char} : ∀ (ns : List String) (p : Path),
    ch ∈ (p.below ns).text.toList → ch ∈ p.text.toList ∨ ch = '/' ∨ ∃ n ∈ ns, ch ∈ n.toList
  | [], p, h => .inl h
  | n :: ns, p, h => by
    rcases mem_text_below ns (p.child n) h with h | h | ⟨m, hm, h⟩
    · have hchild : ch ∈ p.text.toList ∨ ch = '/' ∨ ch ∈ n.toList := by
        unfold Path.child Path.join at h
        split at h
        · exact .inr (.inr h)
        · split at h
          · rw [String.toList_append, List.mem_append] at h
            exact h.imp_right .inr
          · simpa [or_assoc] using h
      rcases hchild with h | h | h
      · exact .inl h
      · exact .inr (.inl h)
      · exact .inr (.inr ⟨n, List.mem_cons_self, h⟩)
    · exact .inr (.inl h)
    · exact .inr (.inr ⟨m, List.mem_cons_of_mem _ hm, h⟩)

/-- A path that ends in a name does not end in a slash. -/
theorem slash_below (p : Path) (ns : List String) {n : String} (hn : IsName n) :
    (Route.of (p.below (ns ++ [n])).text).slash = false := by
  have hbelow : p.below (ns ++ [n]) = (p.below ns).child n := by
    rw [Path.below, List.foldl_append]
    rfl
  rw [hbelow, Path.child_eq_join]
  exact slash_join hn.plainParts

/-- From a directory the names of a file below it lead to the file. -/
theorem leads_to_file {t : FileTree} (ha : t.Admissible) {links : Nat} {c : Content} :
    ∀ {names base : Names}, t.HasFile (base ++ names) c →
      t.Leads links base names links (base ++ names)
  | [], base, _ => by
    rw [List.append_nil]
    exact .done
  | n :: ns, base, h => by
    have hmem : (base ++ n :: ns, Node.item (.file c)) ∈ t.entries :=
      mem_entries_of_get? (by simp) h
    have hn : n ∈ base ++ n :: ns := by simp
    have hname : IsName n := ha.proper.names _ hmem n hn
    have henters : t.Enters base n :=
      ⟨ha.rooted.directory_of_prefix (by simp) h, hname.not_here, hname.not_up,
        ha.short _ hmem n hn⟩
    have hsplit : base ++ n :: ns = base ++ [n] ++ ns := by simp
    rw [hsplit] at h ⊢
    obtain ⟨i, hi⟩ : ∃ i, t.get? (base ++ [n]) = some (.item i) := by
      by_cases hns : ns = []
      · rw [hns, List.append_nil] at h
        exact ⟨_, h⟩
      · exact ⟨_, ha.rooted.directory_of_prefix hns h⟩
    exact .item henters hi (leads_to_file ha h)

/-- A path below a directory leads to the file there, if it is short enough. -/
theorem resolve_below {t : FileTree} (ha : t.Admissible) {dir : Path} {place names : Names}
    {c : Content} (hdir : t.resolve dir = .ok place) (hc : t.HasFile (place ++ names) c)
    (hsize : (dir.below names).text.utf8ByteSize < pathLimit) :
    t.resolve (dir.below names) = .ok (place ++ names) := by
  rcases List.eq_nil_or_concat names with rfl | ⟨init, last, hconcat⟩
  · rw [List.append_nil]
    exact hdir
  · rw [List.concat_eq_append] at hconcat
    have hmem : (place ++ names, Node.item (.file c)) ∈ t.entries :=
      mem_entries_of_get? (by simp [hconcat]) hc
    have hnames : ∀ n ∈ names, IsName n :=
      fun n hn => ha.proper.names _ hmem n (List.mem_append_right _ hn)
    have hroute : (Route.of (dir.below names).text).names = (Route.of dir.text).names ++ names :=
      names_below hnames
    obtain ⟨rest, hfront⟩ := exists_leads_of_resolve hdir
    obtain ⟨r, -, hr, -⟩ := resolve_eq_ok_iff.mp hdir
    rw [routeOf_eq_ok hr, routeOf_eq_ok_iff] at hr
    have hok : routeOf (dir.below names) = .ok (Route.of (dir.below names).text) := by
      refine routeOf_eq_ok_iff.mpr ⟨fun hnul => ?_, fun hempty => ?_, hsize⟩
      · rcases mem_text_below names dir hnul with h | h | ⟨n, hn, h⟩
        · exact hr.1 h
        · exact absurd h (by decide)
        · exact ha.no_nul _ hmem n (List.mem_append_right _ hn) h
      · have hnone : (Route.of "").names = [] := by decide
        rw [hempty, hnone, hconcat] at hroute
        simp at hroute
    have hslash : (Route.of (dir.below names).text).slash = false := by
      rw [hconcat]
      exact slash_below dir init (hnames last (by simp [hconcat]))
    refine resolve_eq_ok_iff.mpr ⟨_, rest, hok, ?_⟩
    rw [Route.steps, hslash, if_neg (by decide), hroute]
    exact hfront.append (leads_to_file ha hc)

/-- A search finds every file at or below the directory, if its path is short enough. -/
theorem mem_filesBelow_of_file {t : FileTree} (ha : t.Admissible) {dir : Path}
    {place names : Names} {c : Content} (hdir : t.resolve dir = .ok place)
    (hc : t.HasFile (place ++ names) c)
    (hsize : (dir.below names).text.utf8ByteSize < pathLimit) : names ∈ t.filesBelow dir := by
  have hholds : t.holds (dir.below names) = true :=
    holds_iff.mpr ⟨_, _, resolve_below ha hdir hc hsize, hc⟩
  unfold filesBelow
  rw [hdir]
  dsimp only
  by_cases hnames : names = []
  · rw [hnames, List.append_nil] at hc
    rw [hc, hnames]
    exact List.mem_singleton_self _
  · rw [ha.rooted.directory_of_prefix hnames hc]
    exact mem_walk_of_file ha.proper ha.rooted hnames hc hholds

/-! ### The name of a file -/

/-- A path whose last name is not special has that as its file name. -/
theorem fileName_of_names {p : Path} {xs : List String} {n : String}
    (h : (Route.of p.text).names = xs ++ [n]) (hn : n ≠ "." ∧ n ≠ "..") :
    p.fileName? = some n := by
  rw [Route.names_of] at h
  obtain ⟨as, bs, hparts, -, hbs⟩ := List.map_eq_append_iff.mp h
  obtain ⟨q, rfl, hq⟩ := List.map_eq_singleton_iff.mp hbs
  have hhere : q ≠ ['.'] := by
    rintro rfl
    exact hn.1 hq.symm
  have hup : q ≠ ['.', '.'] := by
    rintro rfl
    exact hn.2 hq.symm
  have hne : q ≠ [] := by
    have hmem : q ∈ (Text.pieces '/' p.text.toList).filter fun p => !p.isEmpty := by
      rw [hparts]
      simp
    simpa using (List.mem_filter.mp hmem).2
  -- the last part that is not empty is no filler, so it is the last component
  have hlast : (Path.innerComponents p.pieces).getLast? = some (.name n) := by
    have hfilter : p.pieces.filter (fun p => !isFiller p) =
        (as ++ [q]).filter fun p => !isFiller p := by
      rw [← hparts, List.filter_filter]
      refine List.filter_congr fun r _ => ?_
      cases hr : r.isEmpty <;> simp [isFiller, hr]
    have hkeep : (!isFiller q) = true := by simp [isFiller, hne, hhere]
    rw [Path.innerComponents, hfilter, List.filter_append, List.map_append, List.filter_cons,
      if_pos hkeep, List.getLast?_append]
    simp [componentOf, hup, hq]
  have hcomponents : p.components.getLast? = some (.name n) := by
    unfold Path.components
    split
    · rw [List.getLast?_cons, hlast]
      rfl
    · split
      · next ps hps =>
        have hskip : Path.innerComponents (['.'] :: ps) = Path.innerComponents ps := by
          simp [Path.innerComponents, isFiller]
        rw [hps, hskip] at hlast
        rw [List.getLast?_cons, hlast]
        rfl
      · exact hlast
  rw [Path.fileName?, hcomponents]

/-- Without links the path to a file ends in the name of the file. -/
theorem fileName_of_file {t : FileTree} (ht : t.Unlinked) {p : Path} {place : Names} {c : Content}
    (h : t.resolve p = .ok place) (hc : t.HasFile place c) : p.fileName? = place.getLast? := by
  obtain ⟨r, rest, hr, hl⟩ := resolve_eq_ok_iff.mp h
  have hrest := hl.rest_eq ht
  subst hrest
  rw [routeOf_eq_ok hr] at hl
  have hnot : t.get? place ≠ some (.item .directory) := by
    rw [hc]
    simp
  -- behind `.` and `..` there are directories
  have hplain : ∀ {xs : List String} {n : String}, (Route.of p.text).steps = xs ++ [n] →
      n ≠ "." ∧ n ≠ ".." := by
    intro xs n hsteps
    rw [hsteps] at hl
    obtain ⟨mid, dir, hfront, hback⟩ := hl.split rfl
    have hmid := hfront.rest_eq ht
    subst hmid
    have hplace := hback.place_eq_landing ht
    have hd := hback.start.1
    constructor
    · rintro rfl
      rw [hplace] at hnot
      exact hnot hd
    · rintro rfl
      rw [hplace] at hnot
      exact hnot (hfront.directory_up ht hd)
  rcases List.eq_nil_or_concat (Route.of p.text).names with hnil | ⟨xs, n, hnames⟩
  · rcases hslash : (Route.of p.text).slash with - | -
    · rw [Route.steps, hslash, hnil] at hl
      cases hl
      exact absurd rfl hnot
    · have hsteps : (Route.of p.text).steps = [] ++ ["."] := by rw [Route.steps, hslash, hnil]; rfl
      exact absurd rfl (hplain hsteps).1
  · rw [List.concat_eq_append] at hnames
    have hslash : (Route.of p.text).slash = false := by
      by_contra hslash
      rw [Bool.not_eq_false] at hslash
      exact absurd rfl (hplain (by rw [Route.steps, hslash]; rfl)).1
    have hsteps : (Route.of p.text).steps = xs ++ [n] := by
      rw [Route.steps, hslash, hnames]
      rfl
    rw [hsteps] at hl
    obtain ⟨dir, -, rfl⟩ := hl.last ht (hplain hsteps)
    rw [fileName_of_names hnames (hplain hsteps), List.getLast?_concat]

end FileTree
end Disk

namespace Project

open Disk (Path Names FileTree Content IsName)
open Disk.FileTree (Admissible Steps Trims)

/-! ### Model files -/

/-- A text that is not empty and then the ending of model files. -/
def IsModelName (name : String) : Prop := ∃ stem, stem ≠ "" ∧ name = stem ++ ".json"

/-- The file name of a path below a directory is the last name, or that of the directory. -/
theorem fileName_below (dir : Path) {names : Names} (h : ∀ n ∈ names, IsName n) :
    (dir.below names).fileName? = names.getLast?.or dir.fileName? := by
  rcases List.eq_nil_or_concat names with rfl | ⟨init, last, rfl⟩
  · rfl
  · rw [List.concat_eq_append, List.getLast?_concat] at *
    rw [Path.fileName?, Path.components_below h, List.map_append, ← List.append_assoc,
      List.map_singleton, List.getLast?_concat]
    rfl

/-- Model files are told by the names of their paths. -/
theorem isModelFile_iff (dir : Path) {names : Names} (h : ∀ n ∈ names, IsName n) :
    isModelFile dir names = true ↔
      ∃ name, (dir.below names).fileName? = some name ∧ IsModelName name := by
  have hending : ∀ name, Disk.nameEnding? name = some "json" ↔ IsModelName name := by
    intro name
    rw [Disk.FileTree.nameEnding?_eq_some_iff]
    exact and_iff_right (by decide)
  unfold isModelFile
  rw [← fileName_below dir h]
  cases hname : (dir.below names).fileName? with
  | none => simp
  | some name =>
    simp only [Option.bind_some, Option.some.injEq, exists_eq_left']
    rw [← hending]
    cases Disk.nameEnding? name <;> simp

section Searches

variable {t : FileTree} {dir : Path} {names : Names}

/-- Every model file that is found is a file with the name of one. -/
theorem found_is_modelFile (hp : t.Proper) (h : names ∈ foundFiles t dir) :
    (∃ c, t.status (dir.below names) = .ok (.file c)) ∧
      ∃ name, (dir.below names).fileName? = some name ∧ IsModelName name := by
  obtain ⟨hfound, hmodel⟩ := List.mem_filter.mp h
  have hnames := Disk.FileTree.isName_of_mem_filesBelow hp hfound
  exact ⟨Disk.FileTree.status_of_mem_filesBelow hp hfound, (isModelFile_iff dir hnames).mp hmodel⟩

/-- The model files that are found are in the order of the bytes of their paths. -/
theorem pairwise_foundFiles (hp : t.Proper) (dir : Path) :
    (foundFiles t dir).Pairwise fun a b => (dir.below a).bytes < (dir.below b).bytes := by
  refine ((Disk.FileTree.pairwise_filesBelow hp dir).filter _).imp_of_mem fun {a b} ha hb hab => ?_
  have hname : ∀ {names : Names}, names ∈ foundFiles t dir → ∀ n ∈ names, IsName n :=
    fun h => Disk.FileTree.isName_of_mem_filesBelow hp (List.mem_filter.mp h).1
  exact Path.bytes_below_lt (hname ha) (hname hb) hab

/-- Every model file at or below the directory is found, if its path is short enough. -/
theorem mem_foundFiles_of_file (ha : t.Admissible) {place : Names} {c : Content} {name : String}
    (hdir : t.resolve dir = .ok place) (hc : t.HasFile (place ++ names) c)
    (hname : (dir.below names).fileName? = some name) (hmodel : IsModelName name)
    (hsize : (dir.below names).text.utf8ByteSize < Disk.FileTree.pathLimit) :
    names ∈ foundFiles t dir := by
  have hnames : ∀ n ∈ names, IsName n :=
    fun n hn => ha.proper.isName_of_get? hc n (List.mem_append_right _ hn)
  exact List.mem_filter.mpr ⟨Disk.FileTree.mem_filesBelow_of_file ha hdir hc hsize,
    (isModelFile_iff dir hnames).mpr ⟨name, hname, hmodel⟩⟩

/-- Without links exactly the model files at or below the directory are found, as far as
their paths are short enough. -/
theorem mem_foundFiles_iff_file (ht : t.Unlinked) (ha : t.Admissible)
    (hdir : t.holds dir = true) : names ∈ foundFiles t dir ↔
      (∃ c, t.HasFile (dir.place ++ names) c) ∧
      (∃ name, (dir.place ++ names).getLast? = some name ∧ IsModelName name) ∧
      (dir.below names).text.utf8ByteSize < Disk.FileTree.pathLimit := by
  obtain ⟨place, -, hresolve, -⟩ := Disk.FileTree.holds_iff.mp hdir
  have hplace := Disk.FileTree.place_of_resolve ht hresolve
  subst hplace
  constructor
  · intro h
    have hnames := Disk.FileTree.isName_of_mem_filesBelow ha.proper (List.mem_filter.mp h).1
    obtain ⟨⟨c, hstatus⟩, name, hname, hmodel⟩ := found_is_modelFile ha.proper h
    obtain ⟨place, hpath, hc⟩ := Disk.FileTree.status_eq_ok_iff.mp hstatus
    have hplace := Disk.FileTree.place_of_resolve ht hpath
    rw [Disk.place_below hnames] at hplace
    subst hplace
    obtain ⟨r, -, hr, -⟩ := Disk.FileTree.resolve_eq_ok_iff.mp hpath
    rw [Disk.FileTree.routeOf_eq_ok hr, Disk.FileTree.routeOf_eq_ok_iff] at hr
    rw [Disk.FileTree.fileName_of_file ht hpath hc] at hname
    exact ⟨⟨c, hc⟩, ⟨name, hname, hmodel⟩, hr.2.2⟩
  · rintro ⟨⟨c, hc⟩, ⟨name, hname, hmodel⟩, hsize⟩
    have hpath := Disk.FileTree.resolve_below ha hresolve hc hsize
    rw [← Disk.FileTree.fileName_of_file ht hpath hc] at hname
    exact mem_foundFiles_of_file ha hresolve hc hname hmodel hsize

/-- **The search for model files.** It ends, on every tree that lists each place once, links
that lead in a circle included. It finds each file once, in the order of the paths by the
bytes of their components, however the entries of the tree are listed. Every path that is
found leads to a file and has the name of a model file. Links that lead nowhere make no
difference. On a tree that a system may hold it finds every model file at or below the
directory whose path is short enough, and if there are no links then only these. -/
theorem modelFiles_search (t : FileTree) (dir : Path) (hp : t.Proper) :
    (modelFiles dir : StateM FileTree _).run t = (foundFiles t dir, t) ∧
    (∃ n found, (t.searchStep dir)^[n] (t.search dir) = ⟨[], found⟩ ∧
      foundFiles t dir = found.filter (isModelFile dir)) ∧
    (foundFiles t dir).Nodup ∧
    ((foundFiles t dir).Pairwise fun a b => (dir.below a).bytes < (dir.below b).bytes) ∧
    (∀ u : FileTree, u.entries.Perm t.entries → foundFiles u dir = foundFiles t dir) ∧
    (∀ names ∈ foundFiles t dir, (∃ c, t.status (dir.below names) = .ok (.file c)) ∧
      ∃ name, (dir.below names).fileName? = some name ∧ IsModelName name) ∧
    (∀ u : FileTree, u.Proper → Trims t u → foundFiles u dir = foundFiles t dir) ∧
    (t.Admissible → ∀ place names c name, t.resolve dir = .ok place →
      t.HasFile (place ++ names) c → (dir.below names).fileName? = some name → IsModelName name →
      (dir.below names).text.utf8ByteSize < Disk.FileTree.pathLimit →
      names ∈ foundFiles t dir) ∧
    (t.Admissible → t.Unlinked → t.holds dir = true → ∀ names, names ∈ foundFiles t dir ↔
      (∃ c, t.HasFile (dir.place ++ names) c) ∧
      (∃ name, (dir.place ++ names).getLast? = some name ∧ IsModelName name) ∧
      (dir.below names).text.utf8ByteSize < Disk.FileTree.pathLimit) := by
  have hordered := pairwise_foundFiles hp dir
  refine ⟨rfl, ?_, ?_, hordered, ?_, fun names => found_is_modelFile hp, ?_, ?_, ?_⟩
  · obtain ⟨n, hn⟩ := t.search_ends dir
    exact ⟨n, _, hn, rfl⟩
  · refine hordered.imp fun {a b} hab e => ?_
    rw [e] at hab
    exact List.lt_irrefl _ hab
  · intro u hperm
    rw [foundFiles, (Trims.of_perm hp hperm).filesBelow_eq hp (hp.of_perm hperm)]
    rfl
  · intro u hu htrims
    rw [foundFiles, htrims.filesBelow_eq hp hu]
    rfl
  · exact fun ha place names c name => mem_foundFiles_of_file ha
  · exact fun ha ht hdir names => mem_foundFiles_iff_file ht ha hdir

/-! ### A search among links, and one without -/

/-- Two model files, one of them in a directory of its own beside a file that is none. -/
def shelfTree : FileTree := ⟨[
  (["model"], .item .directory),
  (["model", "z.json"], .item (.file (.text "z"))),
  (["model", "nested"], .item .directory),
  (["model", "nested", "b.JSON"], .item (.file (.text "b"))),
  (["model", "nested", "a.json"], .item (.file (.text "a")))]⟩

/-- The same with a link that leads back up. -/
def circleTree : FileTree :=
  ⟨(["model", "nested", "back"], .link "..") :: shelfTree.entries⟩

/-- The same with another link, which leads nowhere. -/
def looseTree : FileTree :=
  ⟨(["model", "gone.json"], .link "nowhere") :: circleTree.entries⟩

theorem shelfTree_unlinked : shelfTree.Unlinked :=
  Disk.FileTree.unlinked_of_entries (by simp [shelfTree])

theorem shelfTree_admissible : shelfTree.Admissible where
  proper := ⟨by decide, by decide⟩
  rooted := Disk.FileTree.rooted_of_entries (by decide)
  short := by decide
  no_nul := by decide

theorem looseTree_admissible : looseTree.Admissible where
  proper := ⟨by decide, by decide⟩
  rooted := Disk.FileTree.rooted_of_entries (by decide)
  short := by decide
  no_nul := by decide

theorem circleTree_proper : circleTree.Proper := ⟨by decide, by decide⟩

/-- The link that leads nowhere is all that the tree without it lacks. -/
theorem looseTree_trims : Trims looseTree circleTree := by
  intro q
  by_cases hq : q = ["model", "gone.json"]
  · subst hq
    refine .inr ⟨by decide, "nowhere", by decide, fun links rest place hl => ?_⟩
    have hstart : Disk.FileTree.startOf ["model", "gone.json"].dropLast "nowhere" = ["model"] := by
      decide
    have hsteps : (Disk.FileTree.Route.of "nowhere").steps = ["nowhere"] := by decide
    rw [hstart, hsteps] at hl
    rcases hl.start.2 with h | h | ⟨-, node, hnode⟩
    · exact absurd h (by decide)
    · exact absurd h (by decide)
    · cases hnode
  · left
    cases q with
    | nil => rfl
    | cons n ns =>
      have hother : ((n :: ns) == ["model", "gone.json"]) = false := beq_eq_false_iff_ne.mpr hq
      show circleTree.entries.lookup (n :: ns) = looseTree.entries.lookup (n :: ns)
      rw [looseTree, List.lookup_cons, hother]

/-- Among links the search ends and finds what it finds without the link that leads nowhere,
and on the tree without links it finds the two model files and not the other file. -/
theorem modelFiles_search_circle :
    (looseTree.Admissible ∧ circleTree.Proper ∧ Trims looseTree circleTree ∧
      (∃ n found, (looseTree.searchStep ⟨"model"⟩)^[n] (looseTree.search ⟨"model"⟩) =
        ⟨[], found⟩) ∧
      foundFiles circleTree ⟨"model"⟩ = foundFiles looseTree ⟨"model"⟩ ∧
      ["nested", "a.json"] ∈ foundFiles looseTree ⟨"model"⟩) ∧
    (shelfTree.Admissible ∧ shelfTree.Unlinked ∧ shelfTree.holds ⟨"model"⟩ = true ∧
      ["z.json"] ∈ foundFiles shelfTree ⟨"model"⟩ ∧
      ["nested", "a.json"] ∈ foundFiles shelfTree ⟨"model"⟩ ∧
      ["nested", "b.JSON"] ∉ foundFiles shelfTree ⟨"model"⟩) := by
  obtain ⟨-, ⟨n, found, hends, -⟩, -, -, -, -, htrims, hcomplete, -⟩ :=
    modelFiles_search looseTree ⟨"model"⟩ looseTree_admissible.proper
  obtain ⟨-, -, -, -, -, -, -, -, hexact⟩ :=
    modelFiles_search shelfTree ⟨"model"⟩ shelfTree_admissible.proper
  have hmodel : shelfTree.holds ⟨"model"⟩ = true :=
    Disk.FileTree.holds_iff.mpr
      ⟨["model"], _, Disk.FileTree.resolve_of_descends rfl rfl, rfl⟩
  have hiff := hexact shelfTree_admissible shelfTree_unlinked hmodel
  have hbelow : ["nested", "a.json"] ∈ foundFiles looseTree ⟨"model"⟩ :=
    hcomplete looseTree_admissible ["model"] _ _ "a.json"
      (Disk.FileTree.resolve_of_descends rfl rfl) rfl (by decide) ⟨"a", by decide, by decide⟩
      (by decide)
  refine ⟨⟨looseTree_admissible, circleTree_proper, looseTree_trims, ⟨n, found, hends⟩,
    htrims circleTree circleTree_proper looseTree_trims, hbelow⟩,
    shelfTree_admissible, shelfTree_unlinked, hmodel, ?_, ?_, ?_⟩
  · exact (hiff _).mpr ⟨⟨_, rfl⟩, ⟨_, rfl, "z", by decide, by decide⟩, by decide⟩
  · exact (hiff _).mpr ⟨⟨_, rfl⟩, ⟨_, rfl, "a", by decide, by decide⟩, by decide⟩
  · intro h
    obtain ⟨-, ⟨name, hname, stem, -, hstem⟩, -⟩ := (hiff _).mp h
    have hsame : "b.JSON" = stem ++ ".json" := (Option.some.inj hname).trans hstem
    have hlast := congrArg (fun n => n.toList.getLast?) hsame
    simp [String.toList_append, List.getLast?_append] at hlast

/-! ### A path that is too long -/

/-- So many slashes. -/
def slashes : Nat → String
  | 0 => ""
  | n + 1 => slashes n ++ "/"

theorem utf8ByteSize_slashes (n : Nat) : (slashes n).utf8ByteSize = n := by
  induction n with
  | zero => rfl
  | succ n ih =>
    have hone : "/".utf8ByteSize = 1 := by decide
    rw [slashes, String.utf8ByteSize_append, ih, hone]

theorem nul_not_mem_slashes (n : Nat) : '\x00' ∉ (slashes n).toList := by
  induction n with
  | zero => decide
  | succ n ih => simpa [slashes] using ih

/-- Slashes at the end add no names. -/
theorem names_append_slashes (s : String) (n : Nat) :
    (Disk.FileTree.Route.of (s ++ slashes n)).names = (Disk.FileTree.Route.of s).names := by
  induction n with
  | zero => rw [slashes, String.append_empty]
  | succ n ih =>
    have h := Disk.FileTree.names_append_slash (s ++ slashes n) ""
    rw [String.append_empty, String.append_assoc, ih] at h
    rw [slashes, h]
    exact List.append_nil _

/-- A path below a directory is longer than that of the directory by each of its names. -/
theorem utf8ByteSize_below : ∀ (names : Names) {p : Path}, p.text ≠ "" → (∀ n ∈ names, IsName n) →
    p.text.utf8ByteSize ≤ (p.below names).text.utf8ByteSize ∧
      ∀ n ∈ names, p.text.utf8ByteSize + n.utf8ByteSize ≤ (p.below names).text.utf8ByteSize
  | [], p, _, _ => ⟨Nat.le_refl _, fun n hn => absurd hn List.not_mem_nil⟩
  | n :: ns, p, hne, h => by
    have hchild : p.text.utf8ByteSize + n.utf8ByteSize ≤ (p.child n).text.utf8ByteSize := by
      unfold Path.child Path.join
      rw [if_neg (by simpa [(h n List.mem_cons_self).isAbsolute] using hne)]
      split
      · exact Nat.le_of_eq String.utf8ByteSize_append.symm
      · rw [String.utf8ByteSize_append, String.utf8ByteSize_append]
        exact Nat.add_le_add_right (Nat.le_add_right _ _) _
    have hchildne : (p.child n).text ≠ "" := by
      obtain ⟨s, hs⟩ := Disk.FileTree.join_text hne (h n List.mem_cons_self).isAbsolute
      intro e
      rw [Path.child, hs] at e
      exact hne (String.append_eq_empty_iff.mp e).1
    obtain ⟨hall, heach⟩ :=
      utf8ByteSize_below ns hchildne fun m hm => h m (List.mem_cons_of_mem _ hm)
    have hbelow : p.below (n :: ns) = (p.child n).below ns := rfl
    rw [hbelow]
    refine ⟨by omega, fun m hm => ?_⟩
    rcases List.mem_cons.mp hm with rfl | hm
    · omega
    · have hm := heach m hm
      omega

/-- The directory of the model files, spelled at length. -/
def longPath : Path := ⟨"model" ++ slashes 4085⟩

/-- **A path may be too long.** The files stand in the directory, but the system takes no
path from it to them, so none is found. -/
theorem modelFiles_search_longPath :
    shelfTree.Admissible ∧ shelfTree.Unlinked ∧ shelfTree.isDirectory longPath = true ∧
      (∃ c, shelfTree.HasFile (longPath.place ++ ["z.json"]) c) ∧ IsModelName "z.json" ∧
      foundFiles shelfTree longPath = [] := by
  have hnames : (Disk.FileTree.Route.of longPath.text).names = ["model"] :=
    names_append_slashes "model" 4085
  have hplace : longPath.place = ["model"] := by
    rw [Path.place_eq_landing, hnames]
    rfl
  have hsize : longPath.text.utf8ByteSize = 4090 := by
    rw [longPath, String.utf8ByteSize_append, utf8ByteSize_slashes]
    decide
  have hne : longPath.text ≠ "" := by
    intro e
    rw [e] at hsize
    cases hsize
  have hroute : Disk.FileTree.routeOf longPath = .ok (Disk.FileTree.Route.of longPath.text) := by
    refine Disk.FileTree.routeOf_eq_ok_iff.mpr ⟨?_, ?_, by rw [hsize]; decide⟩
    · rw [longPath, String.toList_append, List.mem_append, not_or]
      exact ⟨by decide, nul_not_mem_slashes 4085⟩
    · exact hne
  have hdir : shelfTree.isDirectory longPath = true := by
    have hleads : shelfTree.Leads Disk.FileTree.linkLimit [] (Disk.FileTree.Route.of
        longPath.text).names Disk.FileTree.linkLimit ([] ++ ["model"]) := by
      rw [hnames]
      exact Disk.FileTree.leads_of_descends rfl
    exact Disk.FileTree.isDirectory_of_leads hroute hleads rfl
  refine ⟨shelfTree_admissible, shelfTree_unlinked, hdir, ?_, ⟨"z", by decide, by decide⟩, ?_⟩
  · rw [hplace]
    exact ⟨_, rfl⟩
  · have hholds : shelfTree.holds longPath = true := by
      obtain ⟨place, hresolve, hd⟩ := Disk.FileTree.isDirectory_iff.mp hdir
      exact Disk.FileTree.holds_iff.mpr ⟨place, _, hresolve, hd⟩
    refine List.eq_nil_iff_forall_not_mem.mpr fun names h => ?_
    obtain ⟨⟨c, hc⟩, -, hshort⟩ :=
      (mem_foundFiles_iff_file shelfTree_unlinked shelfTree_admissible hholds).mp h
    rw [hplace] at hc
    have hnames := fun n hn =>
      shelfTree_admissible.proper.isName_of_get? hc n (List.mem_append_right _ hn)
    have hmem := Disk.FileTree.mem_entries_of_get? (by simp) hc
    -- whichever file it is, its name has six bytes
    have hsix : ∃ n ∈ names, n.utf8ByteSize = 6 := by
      simp only [shelfTree, List.mem_cons, Prod.mk.injEq, List.singleton_append,
        List.cons.injEq, true_and, List.not_mem_nil, or_false] at hmem
      rcases hmem with ⟨-, h⟩ | ⟨rfl, -⟩ | ⟨-, h⟩ | ⟨rfl, -⟩ | ⟨rfl, -⟩
      · cases h
      · exact ⟨"z.json", by decide, by decide⟩
      · cases h
      · exact ⟨"b.JSON", by decide, by decide⟩
      · exact ⟨"a.json", by decide, by decide⟩
    obtain ⟨n, hn, hbytes⟩ := hsix
    have hlong := (utf8ByteSize_below names hne hnames).2 n hn
    rw [hsize, hbytes] at hlong
    exact absurd hshort (Nat.not_lt.mpr hlong)

end Searches

end Project
end ModelStubs
