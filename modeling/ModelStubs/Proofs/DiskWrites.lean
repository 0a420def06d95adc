/-
# Files written to a disk

A disk sink that takes a call leaves the text at the place of its path and changes no
other file. Later calls may replace the text, but only calls to the same path do: of
several calls to one path the last one counts (`Output.OnDisk`), and every file at a
place to which no call leads is what it was.

Where all directories are there and no directory stands in the way of a file, no call
fails (`Output.succeeds_of_accessible`).

Key definitions: `Output.PlainCalls`, `Output.OnDisk`, `Output.Accessible`.
Key theorems: `Output.stored_of_call`, `Output.onDisk_of_succeeds`,
`Output.succeeds_of_accessible`.
-/
import ModelStubs.Proofs.Sinks
import ModelStubs.Proofs.Trees

namespace ModelStubs
namespace Output

open Disk (Path FileTree Names Content)
open Disk.FileTree (Grows MoreDirectories Stored)

/-- The path of every call is made of the parts of a place below a directory. -/
def PlainCalls (calls : List Call) : Prop :=
  ∀ c ∈ calls, ∃ parts, PlainParts parts ∧ c.1 = pathOf parts

/-- The tree `u` is what calls below the directory `root` leave of the tree `t`. -/
structure OnDisk (root : Path) (calls : List Call) (t u : FileTree) : Prop where
  grows : Grows t u
  /-- The last call to a path gave its text. -/
  last : ∀ parts text, PlainParts parts → calls.reverse.lookup (pathOf parts) = some text →
    u.readText (root.join (pathOf parts)) = .ok text
  /-- No file is new or changed where no call leads. -/
  others : ∀ place content, (∀ c ∈ calls, u.resolve (root.join c.1) ≠ .ok place) →
    (u.HasFile place content ↔ t.HasFile place content)

/-- Calls for entries whose keys are accepted have plain paths. -/
theorem Calls.plain {es : List (String × String)} {calls : List Call} (h : Calls es calls) :
    PlainCalls calls := by
  intro c hc
  obtain ⟨e, -, hp, -⟩ := h.exists_entry hc
  obtain ⟨hs, hpath⟩ := outputPath_eq_ok_iff.mp hp
  exact ⟨keyParts e.1, plainParts_keyParts hs, hpath⟩

theorem PlainCalls.tail {c : Call} {calls : List Call} (h : PlainCalls (c :: calls)) :
    PlainCalls calls := fun d hd => h d (List.mem_cons_of_mem _ hd)

/-- A call makes the directories above the file and then writes it. -/
theorem diskSink_call (root : Path) (t : FileTree) (c : Call) :
    (diskSink root).call t c =
      match (Disk.makeDirectories (m := StateM FileTree)
        ((root.join c.1).ancestors.drop 1)).run t with
      | (.error e, u) => (.error e, u)
      | (.ok (), u) =>
        match u.writeText (root.join c.1) c.2 with
        | (.error e, v) => (.error e, v)
        | (.ok (), v) => (.ok (root.join c.1), v) := by
  unfold Sink.call diskSink
  rw [StateT.run_bind]
  rcases (Disk.makeDirectories (m := StateM FileTree) _).run t with ⟨_ | ⟨⟩, u⟩
  · rfl
  · have hwrite : (Disk.Access.writeText (m := StateM FileTree) (root.join c.1) c.2).run u =
        u.writeText (root.join c.1) c.2 := rfl
    show (StateT.run (Disk.Access.writeText (root.join c.1) c.2 >>= _) u) = _
    rw [StateT.run_bind, hwrite]
    simp only
    rcases u.writeText (root.join c.1) c.2 with ⟨_ | ⟨⟩, v⟩
    · rfl
    · rfl

/-- A call that a disk sink takes stores its text. -/
theorem stored_of_call {root written : Path} {t u : FileTree} (ht : t.Unlinked) {c : Call}
    (h : (diskSink root).call t c = (.ok written, u)) :
    ∃ place, Stored t u (root.join c.1) c.2 place := by
  rw [diskSink_call] at h
  have hadds := Disk.FileTree.adds_makeDirectories ((root.join c.1).ancestors.drop 1) t
  split at h
  · cases h
  · next mid hmid =>
    rw [hmid] at hadds
    split at h
    · cases h
    · next v hv =>
      cases h
      obtain ⟨place, hs⟩ := Disk.FileTree.stored_of_writeText (hadds.grows.unlinked ht) hv
      exact ⟨place, hs.after hadds⟩

/-- What the first call stored and no later call leads to is there in the end. -/
theorem OnDisk.cons {root : Path} {t u v : FileTree} (ht : t.Unlinked) {c : Call}
    {calls : List Call} (hplain : PlainCalls (c :: calls)) {place : Names}
    (hs : Stored t u (root.join c.1) c.2 place) (h : OnDisk root calls u v) :
    OnDisk root (c :: calls) t v := by
  have hv : v.Unlinked := h.grows.unlinked (hs.grows.unlinked ht)
  have hplace : v.resolve (root.join c.1) = .ok place := h.grows.resolve hs.resolve
  refine ⟨hs.grows.trans h.grows, ?_, ?_⟩
  · intro parts text hparts hl
    rw [List.reverse_cons, List.lookup_append] at hl
    cases hlast : calls.reverse.lookup (pathOf parts) with
    | some later =>
      rw [hlast] at hl
      cases hl
      exact h.last parts _ hparts hlast
    | none =>
      rw [hlast, Option.none_or, List.lookup_cons] at hl
      obtain ⟨hc, rfl⟩ : c.1 = pathOf parts ∧ c.2 = text := by
        split at hl
        · next e => cases hl; exact ⟨(beq_iff_eq.mp e).symm, rfl⟩
        · cases hl
      rw [hc] at hplace
      have hnone := List.lookup_eq_none_iff.mp hlast
      refine Disk.FileTree.readText_eq_ok_iff.mpr ⟨place, hplace, ?_⟩
      rw [h.others]
      · exact hs.text
      · intro d hd hdplace
        obtain ⟨qs, hqs, hdq⟩ := hplain.tail d hd
        rw [hdq] at hdplace
        have e := Disk.FileTree.resolve_join_injective hv hparts hqs hplace hdplace
        have hne := hnone d (List.mem_reverse.mpr hd)
        rw [hdq, e, bne_self_eq_false] at hne
        cases hne
  · intro q content hq
    rw [h.others q content fun d hd => hq d (List.mem_cons_of_mem _ hd)]
    refine hs.others q content fun e => ?_
    rw [e] at hq
    exact hq c List.mem_cons_self hplace

/-- Calls that a disk sink takes leave what the last calls wrote. -/
theorem onDisk_of_succeeds {root : Path} {t u : FileTree} {calls : List Call}
    {paths : List Path} (h : (diskSink root).Succeeds t calls paths u) (ht : t.Unlinked)
    (hplain : PlainCalls calls) : OnDisk root calls t u := by
  induction h with
  | nil t => exact ⟨.refl t, fun _ _ _ hl => (by cases hl), fun _ _ _ => Iff.rfl⟩
  | cons hc _ ih =>
    obtain ⟨place, hs⟩ := stored_of_call ht hc
    exact .cons ht hplain hs (ih (hs.grows.unlinked ht) hplain.tail)

/-! ### Calls that cannot fail -/

/-- The directory above the file is there, and the file can be written. -/
structure Accessible (t : FileTree) (file : Path) : Prop where
  directory : ∀ above ∈ (file.ancestors.drop 1).head?, t.isDirectory above = true
  writable : ∃ place, t.Writable file place

/-- A file that can be written where its directory is there is written. -/
theorem call_of_accessible {root : Path} {t : FileTree} (ht : t.Unlinked) {c : Call}
    (h : Accessible t (root.join c.1)) : ∃ place, t.Writable (root.join c.1) place ∧
      (diskSink root).call t c =
        (.ok (root.join c.1), t.put place (.item (.file (.text c.2)))) := by
  obtain ⟨place, hw⟩ := h.writable
  refine ⟨place, hw, ?_⟩
  have hmake : (Disk.makeDirectories (m := StateM FileTree)
      ((root.join c.1).ancestors.drop 1)).run t = (.ok (), t) := by
    have hd := h.directory
    cases hall : (root.join c.1).ancestors.drop 1 with
    | nil => rfl
    | cons p above =>
      rw [hall] at hd
      exact Disk.FileTree.makeDirectories_of_isDirectory (hd p rfl) above
  have hwrite : t.writeText (root.join c.1) c.2 =
      (.ok (), t.put place (.item (.file (.text c.2)))) :=
    (Disk.FileTree.writeText_eq_ok_iff ht).mpr ⟨place, hw, rfl⟩
  rw [diskSink_call, hmake]
  simp only [hwrite]

/-- Writing one file leaves every other accessible. -/
theorem Accessible.put {t : FileTree} {file other : Path} {place : Names} (h : Accessible t file)
    (hw : t.Writable other place) (text : String) :
    Accessible (t.put place (.item (.file (.text text)))) file := by
  have hg := (hw.stored text).grows
  refine ⟨fun above ha => hg.isDirectory (h.directory above ha), ?_⟩
  obtain ⟨place', hw'⟩ := h.writable
  exact ⟨place', hw'.put hw _⟩

/-- A disk sink takes all calls to files that are accessible. -/
theorem succeeds_of_accessible {root : Path} : ∀ {calls : List Call} {t : FileTree}, t.Unlinked →
    (∀ c ∈ calls, Accessible t (root.join c.1)) →
    ∃ paths u, (diskSink root).Succeeds t calls paths u
  | [], t, _, _ => ⟨[], t, .nil t⟩
  | c :: calls, t, ht, h => by
    obtain ⟨place, hw, hcall⟩ := call_of_accessible ht (h c List.mem_cons_self)
    have hu := (hw.stored c.2).grows.unlinked ht
    have hrest : ∀ d ∈ calls,
        Accessible (t.put place (.item (.file (.text c.2)))) (root.join d.1) :=
      fun d hd => (h d (List.mem_cons_of_mem _ hd)).put hw c.2
    obtain ⟨paths, u, hs⟩ := succeeds_of_accessible hu hrest
    exact ⟨_, u, .cons hcall hs⟩

end Output
end ModelStubs
