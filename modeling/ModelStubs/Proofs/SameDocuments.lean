/-
# A run adds no documents

With links a stub may be written over a model file: a name below the output directory may
be a link to one. What stands there afterwards is no document, since the text of a stub
starts with a letter that no value starts with (`Stub.ofText_classText`). So a model file
that is read as a document in the middle of a run is one that nothing was written to yet,
and it was read as the same document before the run (`Project.NoNewDocuments.loads`).

Key definitions: `Project.NoNewDocuments`.
Key theorems: `Stub.ofText_classText`, `Project.NoNewDocuments.loads`,
`Project.noNewDocuments_outcomes`.
-/
import ModelStubs.Proofs.LinkedWrites
import ModelStubs.Proofs.ModelTexts
import ModelStubs.Proofs.StubTexts
import ModelStubs.Proofs.StubWrites

namespace ModelStubs

namespace Json

/-- A text that does not start as a value is not read as a record. -/
theorem ofText_of_head_error {α : Type} {r : RecordShape α} {source : String} {e : Stop}
    (h : head source.toList = .error e) : ∃ f, (Shape.record r).ofText source = .error f := by
  cases r with
  | mk name fields view =>
    have hrun : ((Shape.record (.mk name fields view)).read nesting).run source.toList =
        .error e := by
      simp only [Shape.read, RecordShape.read, Reader.map, Reader.record, h, mapped]
    unfold Shape.ofText Reader.ofText
    rw [hrun]
    exact ⟨_, rfl⟩

end Json

namespace Stub

open Model (DataClass Document Element Placement)

/-- **A stub is no document.** -/
theorem ofText_classText (p : Placement) (c : DataClass) (version : String) :
    ∃ f, Document.ofText (classText p c version) = .error f := by
  have hhead : Json.head (classText p c version).toList =
      .error (.on .expectedValue (classText p c version).toList) := by
    rw [classText_eq]
    simp only [String.toList_append, List.append_assoc]
    rfl
  exact Json.ofText_of_head_error hhead

/-- All texts that are generated are those of stubs. -/
theorem exists_class_of_mem_stubs {p : Placement} {elements : List Element} {version : String}
    {e : String × String} (h : e ∈ (stubs p elements version).entries) :
    ∃ c, e.2 = classText p c version := by
  have hget := Listing.get?_eq_some_iff.mpr h
  rw [stubs, Listing.get?_ofList] at hget
  obtain ⟨before, after, hsplit, -⟩ := List.lookup_eq_some_iff.mp hget
  have hmem : (e.1, e.2) ∈ ((elements.filterMap Element.class?).map fun c =>
      (fileName p c, classText p c version)).reverse := by
    rw [hsplit]
    simp
  obtain ⟨c, -, hc⟩ := List.mem_map.mp (List.mem_reverse.mp hmem)
  exact ⟨c, (congrArg Prod.snd hc).symm⟩

end Stub

namespace Project

open Disk (Path FileTree Names Content)
open Disk.FileTree (Grows)
open Model (Document)
open Output (Call diskSink)

/-- The text is not read as a document. -/
def Unreadable (text : String) : Prop := ∃ f, Document.ofText text = .error f

/-- The tree has grown, and a file that is new or changed holds no document. -/
structure NoNewDocuments (t u : FileTree) : Prop where
  grows : Grows t u
  files : ∀ place content, u.HasFile place content →
    t.HasFile place content ∨ ∃ text, content = .text text ∧ Unreadable text

namespace NoNewDocuments

variable {t u v : FileTree}

theorem refl (t : FileTree) : NoNewDocuments t t := ⟨.refl t, fun _ _ => .inl⟩

theorem trans (h : NoNewDocuments t u) (h' : NoNewDocuments u v) : NoNewDocuments t v where
  grows := h.grows.trans h'.grows
  files := by
    intro place content hc
    rcases h'.files place content hc with hc | hnew
    · exact h.files place content hc
    · exact .inr hnew

/-- **What is a document was the same document before.** -/
theorem loads (h : NoNewDocuments t u) {path : Path} {content : Content} {d : Document}
    (hfile : t.status path = .ok (.file content)) (hd : Loads u path d) : Loads t path d := by
  obtain ⟨source, hread, hsource⟩ := loads_iff.mp hd
  obtain ⟨place, hplace, hholds⟩ := Disk.FileTree.readText_eq_ok_iff.mp hread
  obtain ⟨q, hq, -⟩ := Disk.FileTree.status_eq_ok_iff.mp hfile
  -- the path still leads where it led
  obtain rfl : q = place := Except.ok.inj ((h.grows.resolve hq).symm.trans hplace)
  rcases h.files _ _ hholds with hthere | ⟨text, htext, f, hf⟩
  · exact loads_iff.mpr
      ⟨source, Disk.FileTree.readText_eq_ok_iff.mpr ⟨q, hq, hthere⟩, hsource⟩
  · cases htext
    cases hsource.symm.trans hf

end NoNewDocuments

/-- The request adds no documents to any tree. -/
def AddsNone {α : Type} (x : StateM FileTree α) : Prop := ∀ t, NoNewDocuments t (x.run t).2

theorem addsNone_compositional : Disk.Compositional AddsNone where
  pure := fun _ t => .refl t
  bind := fun hx hf t => (hx t).trans (hf _ _)

theorem addsNone_makeDirectories (ps : List Path) :
    AddsNone (Disk.makeDirectories (m := StateM FileTree) ps) := by
  intro t
  have hmore := Disk.FileTree.adds_makeDirectories ps t
  exact ⟨hmore.grows, fun _ _ hc => .inl (hmore.hasFile_iff.mp hc)⟩

theorem addsNone_writeText (p : Path) {text : String} (h : Unreadable text) :
    AddsNone (Disk.Access.writeText (m := StateM FileTree) p text) := by
  intro t
  show NoNewDocuments t (t.writeText p text).2
  rcases hw : t.writeText p text with ⟨e | ⟨⟩, u⟩
  · rw [Disk.FileTree.writeText_error hw]
    exact .refl t
  · obtain ⟨place, hstored⟩ := Disk.FileTree.stored_of_written hw
    refine ⟨hstored.grows, fun q c hc => ?_⟩
    by_cases hq : q = place
    · subst hq
      cases hc.symm.trans hstored.text
      exact .inr ⟨text, rfl, h⟩
    · exact .inl ((hstored.others q c hq).mp hc)

/-- Writing texts that are no documents adds none. -/
theorem addsNone_writeFiles (root : Path) {files : GeneratedFiles}
    (h : ∀ e ∈ files.entries, Unreadable e.2) :
    AddsNone (Output.writeFiles (m := StateM FileTree) (diskSink root) files) := by
  unfold Output.writeFiles
  cases hr : Output.resolved files.entries with
  | error f => exact addsNone_compositional.pure _
  | ok calls =>
    refine addsNone_compositional.writeAll fun c hc => ?_
    obtain ⟨e, he, -, htext⟩ := (Output.resolved_eq_ok_iff.mp hr).exists_entry hc
    have hc : Unreadable c.2 := htext ▸ h e he
    refine addsNone_compositional.bind (addsNone_makeDirectories _) fun result => ?_
    split
    · exact addsNone_compositional.pure _
    · refine addsNone_compositional.bind (addsNone_writeText _ hc) fun result => ?_
      split
      · exact addsNone_compositional.pure _
      · exact addsNone_compositional.pure _

/-- Every text that a registered generator makes is no document. -/
theorem unreadable_of_run {r : Registry} (hr : builtin = .ok r) {name : String}
    {p : Model.Placement} {elements : List Model.Element} {version : String}
    {files : GeneratedFiles} (h : r.run name p elements version = .ok files) :
    ∀ e ∈ files.entries, Unreadable e.2 := by
  intro e he
  rw [eq_stubs_of_run hr h] at he
  obtain ⟨c, hc⟩ := Stub.exists_class_of_mem_stubs he
  rw [hc]
  exact Stub.ofText_classText p c version

/-- **Going through model files adds no documents.** -/
theorem noNewDocuments_outcomes {job : Job} (hr : builtin = .ok job.registry) (files : List Names)
    (t : FileTree) : NoNewDocuments t ((outcomes job files).run t).2 :=
  compositional_outcomes addsNone_compositional (fun _ _ => .refl)
    (fun _ _ _ _ hlot => addsNone_writeFiles _ (unreadable_of_run hr hlot)) t

end Project
end ModelStubs
