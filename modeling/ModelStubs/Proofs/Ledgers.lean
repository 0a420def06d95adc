/-
# A ledger of the texts to be written

The program only makes requests to files, so it can be run on anything that answers them.
A ledger (`Disk.Ledger`) is a file tree that answers as it is, and writes down each text
that was to be written, with its path and in order. Nothing in the run shows that it is
written down: the same program on the tree alone gives the same answers and leaves the same
tree (`Disk.Notes`). What stands in the ledger afterwards is known for requests that are
made one after the other, and so for making directories, where it is nothing, and for the
calls that a disk sink takes, where it is the text of every call (`Output.notes_writeAll`).

Key definitions: `Disk.Ledger`, `Disk.Notes`, `Disk.Silent`, `Output.Puts`.
Key theorems: `Disk.Notes.bind`, `Disk.silent_makeDirectories`, `Output.notes_writeAll`,
`Output.puts_writeFiles`.
-/
import ModelStubs.Proofs.DiskWrites

namespace ModelStubs
namespace Disk

/-- A file tree, and the texts that were to be written, each behind its path. -/
structure Ledger where
  tree : FileTree
  writes : List (Path × String)

/-- A request to the tree, for which `log` is written down. -/
def Ledger.request {α : Type} (log : List (Path × String)) (x : StateM FileTree α) :
    StateM Ledger α :=
  fun l => ((x.run l.tree).1, ⟨(x.run l.tree).2, l.writes ++ log⟩)

/-- The tree answers; texts that are to be written are written down first. -/
instance : Access (StateM Ledger) where
  holds p := Ledger.request [] (Access.holds p)
  isDirectory p := Ledger.request [] (Access.isDirectory p)
  readText p := Ledger.request [] (Access.readText p)
  makeDirectory p := Ledger.request [] (Access.makeDirectory p)
  writeText p s := Ledger.request [(p, s)] (Access.writeText p s)
  filesBelow p := Ledger.request [] (Access.filesBelow p)

variable {α β : Type} {x : StateM FileTree α} {y : StateM Ledger α} {f : α → StateM FileTree β}
  {g : α → StateM Ledger β} {t u : FileTree} {log more : List (Path × String)}

/-- On the tree `t` both give the same answer and leave the same tree, and the second
writes down `log`. -/
def Notes (x : StateM FileTree α) (y : StateM Ledger α) (t : FileTree)
    (log : List (Path × String)) : Prop :=
  ∀ before, y.run ⟨t, before⟩ = ((x.run t).1, ⟨(x.run t).2, before ++ log⟩)

theorem Notes.pure (a : α) (t : FileTree) :
    Notes (Pure.pure a) (Pure.pure a : StateM Ledger α) t [] := by
  intro before
  rw [List.append_nil]
  rfl

/-- What comes later is written down behind. -/
theorem Notes.bind {a : α} (hx : Notes x y t log) (hrun : x.run t = (a, u))
    (hf : Notes (f a) (g a) u more) : Notes (x >>= f) (y >>= g) t (log ++ more) := by
  intro before
  have hfirst := hx before
  rw [hrun] at hfirst
  rw [StateT.run_bind, StateT.run_bind, hfirst, hrun, ← List.append_assoc]
  exact hf (before ++ log)

theorem notes_request (x : StateM FileTree α) (t : FileTree) (log : List (Path × String)) :
    Notes x (Ledger.request log x) t log := fun _ => rfl

/-- Nothing is written down, on any tree. -/
def Silent (x : StateM FileTree α) (y : StateM Ledger α) : Prop := ∀ t, Notes x y t []

theorem Silent.pure (a : α) : Silent (Pure.pure a) (Pure.pure a : StateM Ledger α) :=
  fun t => .pure a t

theorem Silent.bind (hx : Silent x y) (hf : ∀ a, Silent (f a) (g a)) :
    Silent (x >>= f) (y >>= g) :=
  fun t => (hx t).bind rfl (hf (x.run t).1 (x.run t).2)

theorem silent_isDirectory (p : Path) :
    Silent (Access.isDirectory (m := StateM FileTree) p) (Access.isDirectory p) :=
  fun t => notes_request _ t []

theorem silent_makeDirectory (p : Path) :
    Silent (Access.makeDirectory (m := StateM FileTree) p) (Access.makeDirectory p) :=
  fun t => notes_request _ t []

theorem silent_unlessDirectory (p : Path) (e : Error) :
    Silent (unlessDirectory (m := StateM FileTree) p e) (unlessDirectory p e) := by
  unfold unlessDirectory
  by_cases h : e = .alreadyExists
  · rw [if_pos h, if_pos h]
    refine (silent_isDirectory p).bind fun b => ?_
    cases b with
    | true => exact .pure _
    | false => exact .pure _
  · rw [if_neg h, if_neg h]
    exact .pure _

/-- Making directories writes nothing down. -/
theorem silent_makeDirectories : ∀ ps : List Path,
    Silent (makeDirectories (m := StateM FileTree) ps) (makeDirectories ps)
  | [] => .pure _
  | p :: above => by
    unfold makeDirectories
    by_cases hempty : p.text.isEmpty = true
    · rw [if_pos hempty, if_pos hempty]
      exact .pure _
    · rw [if_neg hempty, if_neg hempty]
      refine (silent_makeDirectory p).bind fun result => ?_
      split
      · exact .pure _
      · refine (silent_makeDirectories above).bind fun made => ?_
        split
        · exact .pure _
        · refine (silent_makeDirectory p).bind fun again => ?_
          split
          · exact .pure _
          · exact silent_unlessDirectory p _
      · exact silent_unlessDirectory p _

end Disk

namespace Output

open Disk (Path FileTree Ledger Notes Silent silent_makeDirectories notes_request)

variable {root : Path} {t u : FileTree}

/-- The text of a call, behind the path that it goes to. -/
def ledgerEntry (root : Path) (c : Call) : Path × String := (root.join c.1, c.2)

/-- A call that a disk sink takes is written down. -/
theorem notes_call {c : Call} {path : Path}
    (h : (diskSink root).call t c = (.ok path, u)) :
    Notes ((diskSink root).write c.1 c.2) ((diskSink (m := StateM Ledger) root).write c.1 c.2) t
      [ledgerEntry root c] := by
  rw [diskSink_call] at h
  split at h
  · cases h
  · next v hmade =>
    split at h
    · cases h
    · next w hwritten =>
      have hwrite : Notes (Disk.Access.writeText (m := StateM FileTree) (root.join c.1) c.2)
          (Disk.Access.writeText (root.join c.1) c.2) v [ledgerEntry root c] :=
        notes_request _ v _
      exact (silent_makeDirectories _ t).bind hmade (hwrite.bind hwritten (.pure _ _))

/-- **What a disk sink took is what stands in the ledger.** -/
theorem notes_writeAll {calls : List Call} {paths : List Path}
    (h : (diskSink root).Succeeds t calls paths u) :
    Notes (writeAll (diskSink root) calls)
      (writeAll (m := StateM Ledger) (diskSink root) calls) t (calls.map (ledgerEntry root)) := by
  induction h with
  | nil t => exact .pure _ t
  | @cons t v w c cs p ps hc hs ih =>
    show Notes _ _ t ([ledgerEntry root c] ++ cs.map (ledgerEntry root))
    refine (notes_call hc).bind hc ?_
    rw [← List.append_nil (cs.map (ledgerEntry root))]
    exact ih.bind (writeAll_of_succeeds hs) (.pure _ _)

/-- On the tree `t` both give the same answer and leave the same tree, and the second writes
down the texts of the entries, each behind the path that its key resolves to below `root`. -/
def Puts {α : Type} (root : Path) (entries : List (String × String)) (x : StateM FileTree α)
    (y : StateM Ledger α) (t : FileTree) : Prop :=
  ∃ calls, Calls entries calls ∧ Notes x y t (calls.map (ledgerEntry root))

namespace Puts

variable {α β : Type} {x : StateM FileTree α} {y : StateM Ledger α} {f : α → StateM FileTree β}
  {g : α → StateM Ledger β} {entries more : List (String × String)} {a : α}

theorem of_silent (h : Silent x y) : Puts root [] x y t := ⟨[], .nil, h t⟩

theorem bind (hx : Puts root entries x y t) (hrun : x.run t = (a, u))
    (hf : Puts root more (f a) (g a) u) : Puts root (entries ++ more) (x >>= f) (y >>= g) t := by
  obtain ⟨calls, hcalls, hnotes⟩ := hx
  obtain ⟨others, hothers, hnotes'⟩ := hf
  refine ⟨calls ++ others, List.rel_append hcalls hothers, ?_⟩
  rw [List.map_append]
  exact hnotes.bind hrun hnotes'

/-- What comes later writes nothing down. -/
theorem bind_silent (hx : Puts root entries x y t) (hf : ∀ a, Silent (f a) (g a)) :
    Puts root entries (x >>= f) (y >>= g) t := by
  have hboth : Puts root (entries ++ []) (x >>= f) (y >>= g) t := hx.bind rfl (of_silent (hf _))
  rwa [List.append_nil] at hboth

/-- What comes first writes nothing down. -/
theorem after_silent (hx : Silent x y) (hrun : x.run t = (a, u))
    (hf : Puts root entries (f a) (g a) u) : Puts root entries (x >>= f) (y >>= g) t :=
  (of_silent hx).bind hrun hf

end Puts

/-- Files that were written to a disk stand in the ledger. -/
theorem puts_writeFiles {files : GeneratedFiles} {paths : List Path}
    (h : (writeFiles (m := StateM FileTree) (diskSink root) files).run t = (.ok paths, u)) :
    paths.length = files.size ∧ Puts root files.entries
      (writeFiles (m := StateM FileTree) (diskSink root) files)
      (writeFiles (diskSink root) files) t := by
  cases hr : resolved files.entries with
  | error f =>
    rw [writeFiles_of_error hr] at h
    cases h
  | ok calls =>
    rw [writeFiles_of_resolved hr] at h
    have hs := succeeds_of_writeAll h
    have hcalls := resolved_eq_ok_iff.mp hr
    refine ⟨hs.length_eq.trans hcalls.length_eq.symm, calls, hcalls, ?_⟩
    unfold writeFiles
    rw [hr]
    exact notes_writeAll hs

end Output
end ModelStubs
