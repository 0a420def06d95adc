/-
# Memory and disk agree

Files that a disk sink writes below an empty directory come out as a memory sink keeps
them: there is a file at each path that the memory has an entry for, with the text of the
entry, and no other; and the directories are those that such a path needs.

Both sinks are told by the calls alone. The last call to a path gave the text of its file
and of its entry, and a directory is made only where the path of a call leads through.

Key definitions: `Output.LastCall`.
Key theorems: `Output.hasFile_iff_lastCall`, `Output.get?_rememberAll_iff`,
`Output.directory_iff_mem_keys`, `Output.diskFiles_eq_memoryFiles`.
-/
import ModelStubs.Proofs.Confinement
import ModelStubs.Proofs.Memory

namespace ModelStubs
namespace Output

open Disk (Path Names FileTree Content Component)
open Disk.FileTree (Grows Route partNames)

variable {root : Path} {t u : FileTree} {calls : List Call} {paths : List Path}

/-- A disk sink answers the paths of its calls, below its directory. -/
theorem paths_of_succeeds (h : (diskSink root).Succeeds t calls paths u) :
    paths = calls.map fun c => root.join c.1 := by
  induction h with
  | nil => rfl
  | cons hc _ ih =>
    rw [diskSink_call] at hc
    split at hc
    · cases hc
    · split at hc
      · cases hc
      · cases hc
        rw [ih, List.map_cons]

/-! ### Directories -/

/-- A call makes directories where its path leads through, and nowhere else. -/
theorem passes_of_directory_of_call (ht : t.Unlinked) {c : Call} {written : Path}
    (h : (diskSink root).call t c = (.ok written, u)) {place : Names}
    (hd : u.get? place = some (.item .directory)) :
    t.get? place = some (.item .directory) ∨ (root.join c.1).Passes place := by
  have habove : ∀ p ∈ (root.join c.1).ancestors.drop 1, (root.join c.1).Passes p.place := by
    intro p hp
    have hprefix := Path.components_of_mem_ancestors (List.mem_of_mem_drop hp)
    exact Path.passes_of_prefix hprefix p.passes_place
  have hmake := Disk.FileTree.makes_makeDirectories habove t ht
  rw [diskSink_call] at h
  split at h
  · cases h
  · next mid hmid =>
    rw [hmid] at hmake
    split at h
    · cases h
    · next v hv =>
      cases h
      have hunl : mid.Unlinked := hmake.more.grows.unlinked ht
      obtain ⟨file, hw, rfl⟩ := (Disk.FileTree.writeText_eq_ok_iff hunl).mp hv
      have hne : place ≠ file := by
        rintro rfl
        rw [Disk.FileTree.get?_put_self hw.ne_nil] at hd
        cases hd
      rw [Disk.FileTree.get?_put_of_ne hne] at hd
      rcases hmake place with hsame | ⟨-, -, hpass⟩
      · exact .inl (hsame.symm.trans hd)
      · exact .inr hpass

/-- Calls make directories where their paths lead through, and nowhere else. -/
theorem passes_of_directory (h : (diskSink root).Succeeds t calls paths u) (ht : t.Unlinked)
    {place : Names} (hd : u.get? place = some (.item .directory)) :
    t.get? place = some (.item .directory) ∨ ∃ c ∈ calls, (root.join c.1).Passes place := by
  induction h with
  | nil => exact .inl hd
  | cons hc _ ih =>
    obtain ⟨_, hstored⟩ := stored_of_call ht hc
    rcases ih (hstored.grows.unlinked ht) hd with hy | ⟨d, hd, hpass⟩
    · exact (passes_of_directory_of_call ht hc hy).imp id fun hpass => ⟨_, List.mem_cons_self, hpass⟩
    · exact .inr ⟨d, List.mem_cons_of_mem _ hd, hpass⟩

/-! ### Files -/

/-- The last call to the path of parts gave a text. -/
def LastCall (calls : List Call) (parts : List (List Char)) (text : String) : Prop :=
  PlainParts parts ∧ calls.reverse.lookup (pathOf parts) = some text

/-- There is a last call to the path of every call. -/
theorem exists_lastCall {c : Call} (hc : c ∈ calls) {parts : List (List Char)}
    (h : PlainParts parts) (hpath : c.1 = pathOf parts) : ∃ text, LastCall calls parts text := by
  cases hl : calls.reverse.lookup (pathOf parts) with
  | some text => exact ⟨text, h, hl⟩
  | none =>
    have hne := List.lookup_eq_none_iff.mp hl c (List.mem_reverse.mpr hc)
    rw [hpath, bne_self_eq_false] at hne
    cases hne

/-- After calls the file of the last call to a path is at the place of that path. -/
theorem OnDisk.hasFile (h : OnDisk root calls t u) (ht : t.Unlinked) {parts : List (List Char)}
    {text : String} (hlast : LastCall calls parts text) :
    u.resolve (root.join (pathOf parts)) = .ok (root.place ++ partNames parts) ∧
      u.HasFile (root.place ++ partNames parts) (.text text) := by
  obtain ⟨place, hresolve, hfile⟩ :=
    Disk.FileTree.readText_eq_ok_iff.mp (h.last parts text hlast.1 hlast.2)
  have hplace : place = root.place ++ partNames parts := by
    rw [Disk.FileTree.place_of_resolve (h.grows.unlinked ht) hresolve, Path.place_join root hlast.1]
  rw [← hplace]
  exact ⟨hresolve, hfile⟩

/-- Below a directory that was empty there are the files of the last calls. -/
theorem hasFile_iff_lastCall (h : OnDisk root calls t u) (ht : t.Unlinked)
    (hplain : PlainCalls calls) {names : Names} {content : Content}
    (hempty : ¬ t.HasFile (root.place ++ names) content) :
    u.HasFile (root.place ++ names) content ↔
      ∃ parts text, LastCall calls parts text ∧ names = partNames parts ∧ content = .text text := by
  constructor
  · intro hu
    have hcall : ∃ c ∈ calls, u.resolve (root.join c.1) = .ok (root.place ++ names) := by
      by_contra hnone
      refine hempty ((h.others _ _ fun c hc hplace => ?_).mp hu)
      exact hnone ⟨c, hc, hplace⟩
    obtain ⟨c, hc, hresolve⟩ := hcall
    obtain ⟨parts, hparts, hpath⟩ := hplain c hc
    obtain ⟨text, hlast⟩ := exists_lastCall hc hparts hpath
    obtain ⟨hplace, hfile⟩ := h.hasFile ht hlast
    rw [hpath, hplace] at hresolve
    have hnames : root.place ++ partNames parts = root.place ++ names := Except.ok.inj hresolve
    rw [hnames] at hfile
    have hcontent : content = .text text := by
      have hsame := hu.symm.trans hfile
      cases hsame
      rfl
    exact ⟨parts, text, hlast, (List.append_cancel_left hnames).symm, hcontent⟩
  · rintro ⟨parts, text, hlast, rfl, rfl⟩
    exact (h.hasFile ht hlast).2

theorem nameComponents_eq (parts : List (List Char)) :
    nameComponents parts = (partNames parts).map Component.name := by
  rw [partNames, List.map_map]
  rfl

theorem partNames_of_components {names : Names} {parts : List (List Char)}
    (h : names.map Component.name = nameComponents parts) : names = partNames parts := by
  rw [nameComponents_eq] at h
  exact List.map_injective_iff.mpr (fun _ _ e => Component.name.inj e) h

/-- In memory there are the entries of the last calls. -/
theorem get?_rememberAll_iff (hplain : PlainCalls calls) {names : Names} {spelled : Path}
    {text : String} :
    (rememberAll ∅ calls).get? (names.map Component.name) = some (spelled, text) ↔
      ∃ parts, LastCall calls parts text ∧ names = partNames parts ∧ spelled = pathOf parts := by
  have hget : ∀ parts, PlainParts parts →
      (rememberAll ∅ calls).get? ((partNames parts).map Component.name) =
        (calls.reverse.lookup (pathOf parts)).map fun text => (pathOf parts, text) := by
    intro parts hparts
    rw [← nameComponents_eq, ← components_pathOf hparts]
    refine get?_rememberAll fun c hc hsame => ?_
    obtain ⟨qs, hqs, hpath⟩ := hplain c hc
    rw [hpath] at hsame ⊢
    rw [eq_of_components_pathOf hqs hparts hsame]
  constructor
  · intro h
    have hkey := Listing.mem_keys_iff.mpr ⟨_, h⟩
    obtain ⟨c, hc, hcomponents⟩ := mem_keys_rememberAll.mp hkey
    obtain ⟨parts, hparts, hpath⟩ := hplain c hc
    rw [hpath, components_pathOf hparts] at hcomponents
    have hnames := partNames_of_components hcomponents
    rw [hnames, hget parts hparts] at h
    obtain ⟨text', hl, hsame⟩ := Option.map_eq_some_iff.mp h
    cases hsame
    exact ⟨parts, ⟨hparts, hl⟩, hnames, rfl⟩
  · rintro ⟨parts, hlast, rfl, rfl⟩
    rw [hget parts hlast.1, hlast.2]
    rfl

/-- A directory below one that was empty stands above the place of an entry. -/
theorem exists_key_of_directory (h : (diskSink root).Succeeds t calls paths u) (ht : t.Unlinked)
    (hplain : PlainCalls calls) (hroot : t.isDirectory root = true) {names : Names}
    (hnone : t.get? (root.place ++ names) = none)
    (hd : u.get? (root.place ++ names) = some (.item .directory)) :
    ∃ more, more ≠ [] ∧ names.map Component.name ++ more ∈ (rememberAll ∅ calls).keys := by
  rcases passes_of_directory h ht hd with hold | ⟨c, hc, hpass⟩
  · rw [hnone] at hold
    cases hold
  obtain ⟨parts, hparts, hpath⟩ := hplain c hc
  rw [hpath] at hpass
  rcases Path.exists_parts_of_passes hparts hpass with hpass | ⟨qs, ⟨rs, hqs⟩, hplace⟩
  · -- the path of the directory leads through what was there
    obtain ⟨place, hresolve, -⟩ := Disk.FileTree.isDirectory_iff.mp hroot
    exact absurd hnone (Disk.FileTree.get?_of_passes ht hresolve hpass)
  have hnames : names = partNames qs := List.append_cancel_left hplace
  refine ⟨nameComponents rs, ?_, mem_keys_rememberAll.mpr ⟨c, hc, ?_⟩⟩
  · -- a file stands where the whole path leads
    intro hnil
    have hrs : rs = [] := by simpa [nameComponents] using hnil
    obtain ⟨text, hlast⟩ := exists_lastCall hc hparts hpath
    have hfile := ((onDisk_of_succeeds h ht hplain).hasFile ht hlast).2
    rw [← hqs, hrs, List.append_nil, ← hnames, FileTree.HasFile, hd] at hfile
    cases hfile
  · rw [hpath, components_pathOf hparts, ← hqs, hnames, ← nameComponents_eq]
    exact (List.map_append (f := fun part => Component.name (String.ofList part))).symm

/-- Above the place of an entry there are directories. -/
theorem directory_of_key (h : (diskSink root).Succeeds t calls paths u) (ht : t.Unlinked)
    (hplain : PlainCalls calls) {names : Names} {more : List Component} (hmore : more ≠ [])
    (hkey : names.map Component.name ++ more ∈ (rememberAll ∅ calls).keys) :
    u.get? (root.place ++ names) = some (.item .directory) := by
  have hdisk := onDisk_of_succeeds h ht hplain
  obtain ⟨c, hc, hcomponents⟩ := mem_keys_rememberAll.mp hkey
  obtain ⟨parts, hparts, hpath⟩ := hplain c hc
  rw [hpath, components_pathOf hparts] at hcomponents
  obtain ⟨qs, rs, hsplit, hqs, hrs⟩ := List.map_eq_append_iff.mp hcomponents.symm
  have hnames : names = partNames qs := partNames_of_components hqs.symm
  obtain ⟨r, rs', rfl⟩ : ∃ r rs', rs = r :: rs' := by
    refine List.exists_cons_of_ne_nil ?_
    rintro rfl
    exact hmore hrs.symm
  obtain ⟨text, hlast⟩ := exists_lastCall hc hparts hpath
  have hresolve := (hdisk.hasFile ht hlast).1
  have hroute : (Route.of (root.join (pathOf parts)).text).names =
      ((Route.of root.text).names ++ names) ++ String.ofList r :: partNames rs' := by
    rw [Disk.FileTree.route_join root hparts, hsplit, hnames, partNames, List.map_append,
      List.append_assoc]
    rfl
  have hplain' : ∀ n ∈ names, n ≠ "." ∧ n ≠ ".." := by
    intro n hn
    rw [hnames] at hn
    refine Disk.FileTree.partNames_plain hparts n ?_
    rw [hsplit, partNames, List.map_append]
    exact List.mem_append_left _ hn
  have hd := Disk.FileTree.directory_of_resolve (hdisk.grows.unlinked ht) hresolve hroute
  rw [Disk.landing_append, ← Path.place_eq_landing, Disk.landing_plain hplain'] at hd
  exact hd

/-- Below a directory that was empty there are the directories that the paths of the calls
need. -/
theorem directory_iff_mem_keys (h : (diskSink root).Succeeds t calls paths u) (ht : t.Unlinked)
    (hplain : PlainCalls calls) (hroot : t.isDirectory root = true)
    (hempty : ∀ place, Below root.place place → t.get? place = none) {names : Names}
    (hne : names ≠ []) :
    u.get? (root.place ++ names) = some (.item .directory) ↔
      ∃ more, more ≠ [] ∧ names.map Component.name ++ more ∈ (rememberAll ∅ calls).keys := by
  have hnone : t.get? (root.place ++ names) = none :=
    hempty _ ⟨List.prefix_append _ _, by simpa using hne⟩
  constructor
  · exact exists_key_of_directory h ht hplain hroot hnone
  · rintro ⟨more, hmore, hkey⟩
    exact directory_of_key h ht hplain hmore hkey

/-- **Files written below an empty directory are those that a memory keeps.** If writing to
the disk succeeds then it succeeds in memory. The files below the directory are then the
entries of the memory, under the same names and with the same texts; the directories below
it are at the proper prefixes of their paths; and the paths that the disk answers are those
that the memory answers, below the directory. -/
theorem diskFiles_eq_memoryFiles {files : GeneratedFiles} (ht : t.Unlinked)
    (hroot : t.isDirectory root = true)
    (hempty : ∀ place, Below root.place place → t.get? place = none)
    (h : (writeFiles (m := StateM FileTree) (diskSink root) files).run t = (.ok paths, u)) :
    ∃ written memory, (writeFiles memorySink files).run ∅ = (.ok written, memory) ∧
      paths = written.map root.join ∧
      u.resolve root = .ok root.place ∧ u.Unlinked ∧
      (∀ key ∈ memory.keys, ∃ names, names ≠ [] ∧ key = names.map Component.name) ∧
      (∀ names content, names ≠ [] → (u.HasFile (root.place ++ names) content ↔
        ∃ spelled text, memory.get? (names.map Component.name) = some (spelled, text) ∧
          content = .text text)) ∧
      ∀ names, names ≠ [] → (u.get? (root.place ++ names) = some (.item .directory) ↔
        ∃ more, more ≠ [] ∧ names.map Component.name ++ more ∈ memory.keys) := by
  cases hr : resolved files.entries with
  | error f =>
    rw [writeFiles_of_error hr] at h
    cases h
  | ok calls =>
    have hplain := (resolved_eq_ok_iff.mp hr).plain
    rw [writeFiles_of_resolved hr] at h
    have hs : (diskSink root).Succeeds t calls paths u := succeeds_of_writeAll h
    have hdisk := onDisk_of_succeeds hs ht hplain
    have hunl := hdisk.grows.unlinked ht
    refine ⟨calls.map Prod.fst, rememberAll ∅ calls, ?_, ?_, ?_, hunl, ?_, ?_, ?_⟩
    · rw [writeFiles_of_resolved hr, writeAll_of_succeeds (memorySink_succeeds calls ∅)]
    · rw [paths_of_succeeds hs, List.map_map]
      rfl
    · obtain ⟨place, hresolve, -⟩ := Disk.FileTree.isDirectory_iff.mp hroot
      have hplace := hdisk.grows.resolve hresolve
      rw [Disk.FileTree.place_of_resolve hunl hplace] at hplace
      exact hplace
    · intro key hkey
      obtain ⟨c, hc, rfl⟩ := mem_keys_rememberAll.mp hkey
      obtain ⟨parts, hparts, hpath⟩ := hplain c hc
      refine ⟨partNames parts, by simpa [partNames] using hparts.1, ?_⟩
      rw [hpath, components_pathOf hparts, nameComponents_eq]
    · intro names content hne
      have hfree : ¬ t.HasFile (root.place ++ names) content := by
        rw [FileTree.HasFile, hempty _ ⟨List.prefix_append _ _, by simpa using hne⟩]
        simp
      rw [hasFile_iff_lastCall hdisk ht hplain hfree]
      simp only [get?_rememberAll_iff hplain]
      constructor
      · rintro ⟨parts, text, hlast, hnames, hcontent⟩
        exact ⟨pathOf parts, text, ⟨parts, hlast, hnames, rfl⟩, hcontent⟩
      · rintro ⟨_, text, ⟨parts, hlast, hnames, -⟩, hcontent⟩
        exact ⟨parts, text, hlast, hnames, hcontent⟩
    · intro names hne
      exact directory_iff_mem_keys hs ht hplain hroot hempty hne

/-- A tree with an empty directory. -/
def outTree : FileTree := ⟨[(["out"], .item .directory)]⟩

theorem outTree_unlinked : outTree.Unlinked :=
  Disk.FileTree.unlinked_of_entries (by simp [outTree])

theorem outTree_isDirectory : outTree.isDirectory ⟨"/out"⟩ = true :=
  Disk.FileTree.isDirectory_iff.mpr ⟨["out"], Disk.FileTree.resolve_of_descends rfl rfl, rfl⟩

/-- The tree with a file that the path of both files leads to. -/
def outTreeWith (text : String) : FileTree :=
  (outTree.put ["out", "a"] (.item .directory)).put ["out", "a", "b"] (.item (.file (.text text)))

theorem outTree_call (text : String) :
    (diskSink ⟨"/out"⟩).call outTree (⟨"a/b"⟩, text) = (.ok ⟨"/out/a/b"⟩, outTreeWith text) := by
  have hfile : (Disk.Path.mk "/out").join ⟨"a/b"⟩ = ⟨"/out/a/b"⟩ := by decide
  have habove : (Disk.Path.mk "/out/a/b").ancestors.drop 1 = [⟨"/out/a"⟩, ⟨"/out"⟩, ⟨"/"⟩] := by
    decide +kernel
  have henters : outTree.Enters ["out"] "a" := ⟨rfl, by decide, by decide, by decide⟩
  have hmake : outTree.makeDirectory ⟨"/out/a"⟩ =
      (.ok (), outTree.put ["out", "a"] (.item .directory)) :=
    Disk.FileTree.makeDirectory_of_descends rfl rfl henters rfl
  have hunl : (outTree.put ["out", "a"] (.item .directory)).Unlinked :=
    (Disk.FileTree.moreDirectories_put (by simp) rfl).grows.unlinked outTree_unlinked
  have hwrite : (outTree.put ["out", "a"] (.item .directory)).writeText ⟨"/out/a/b"⟩ text =
      (.ok (), outTreeWith text) := by
    refine (Disk.FileTree.writeText_eq_ok_iff hunl).mpr ⟨["out", "a"] ++ ["b"], ?_, rfl⟩
    exact Disk.FileTree.writable_of_descends rfl rfl ⟨rfl, by decide, by decide, by decide⟩ (.inl rfl)
  rw [diskSink_call, hfile, habove, Disk.FileTree.makeDirectories_made (by decide) hmake]
  simp only [hwrite]

/-- Two files whose keys lead to one path can be written there. -/
theorem outTree_written : ∃ u,
    (writeFiles (m := StateM FileTree) (diskSink ⟨"/out"⟩) twinFiles).run outTree =
      (.ok [⟨"/out/a/b"⟩, ⟨"/out/a/b"⟩], u) := by
  have hresolved : resolved twinFiles.entries = .ok [(⟨"a/b"⟩, "two"), (⟨"a/b"⟩, "one")] := rfl
  have hunl : (outTreeWith "two").Unlinked := by
    obtain ⟨_, hstored⟩ := stored_of_call outTree_unlinked (outTree_call "two")
    exact hstored.grows.unlinked outTree_unlinked
  have haccessible : Accessible (outTreeWith "two") ⟨"/out/a/b"⟩ := by
    constructor
    · intro above h
      have habove : ((Disk.Path.mk "/out/a/b").ancestors.drop 1).head? = some ⟨"/out/a"⟩ := by
        decide +kernel
      rw [habove] at h
      cases h
      exact Disk.FileTree.isDirectory_iff.mpr
        ⟨["out", "a"], Disk.FileTree.resolve_of_descends rfl rfl, rfl⟩
    · exact ⟨["out", "a"] ++ ["b"], Disk.FileTree.writable_of_descends rfl rfl
        ⟨rfl, by decide, by decide, by decide⟩ (.inr ⟨.text "two", rfl⟩)⟩
  have hfile : (Disk.Path.mk "/out").join ⟨"a/b"⟩ = ⟨"/out/a/b"⟩ := by decide
  rw [← hfile] at haccessible
  obtain ⟨place, -, hagain⟩ := call_of_accessible (c := (⟨"a/b"⟩, "one")) hunl haccessible
  have hsucceeds := Sink.Succeeds.cons (outTree_call "two") (.cons hagain (.nil _))
  rw [writeFiles_of_resolved hresolved, writeAll_of_succeeds hsucceeds]
  exact ⟨_, rfl⟩

/-- Of two files of one path the later one is left, on the disk as in memory, and the
directory above it was made. -/
theorem diskFiles_eq_memoryFiles_twinFiles : outTree.Unlinked ∧
    outTree.isDirectory ⟨"/out"⟩ = true ∧
    (∀ place, Below (Disk.Path.mk "/out").place place → outTree.get? place = none) ∧ ∃ u,
    (writeFiles (m := StateM FileTree) (diskSink ⟨"/out"⟩) twinFiles).run outTree =
      (.ok [⟨"/out/a/b"⟩, ⟨"/out/a/b"⟩], u) ∧
    u.HasFile ["out", "a", "b"] (.text "one") ∧
    u.get? ["out", "a"] = some (.item .directory) := by
  have hempty : ∀ place, Below (Disk.Path.mk "/out").place place → outTree.get? place = none := by
    intro place hbelow
    have hplace : (Disk.Path.mk "/out").place = ["out"] := by decide
    rw [hplace] at hbelow
    obtain ⟨⟨names, rfl⟩, hne⟩ := hbelow
    cases names with
    | nil => exact absurd rfl hne
    | cons n ns => rfl
  obtain ⟨u, hrun⟩ := outTree_written
  obtain ⟨written, memory, hmemory, -, -, -, -, hfiles, hdirectories⟩ :=
    diskFiles_eq_memoryFiles outTree_unlinked outTree_isDirectory hempty hrun
  rw [twinFiles_written] at hmemory
  cases hmemory
  refine ⟨outTree_unlinked, outTree_isDirectory, hempty, u, hrun, ?_, ?_⟩
  · exact (hfiles ["a", "b"] _ (by simp)).mpr ⟨⟨"a/b"⟩, "one", rfl, rfl⟩
  · exact (hdirectories ["a"] (by simp)).mpr ⟨[.name "b"], by simp, by decide⟩

end Output
end ModelStubs
