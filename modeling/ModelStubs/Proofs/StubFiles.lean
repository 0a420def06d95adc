/-
# The files that stubs make

There is one stub for each name of a class, because the key of a stub tells the name, and
it is the stub of the last class of this name (`Stub.get?_stubs`). So the stubs of a list
of elements are settled by the order in which classes of one name come, and elements that
come later override those from before (`Stub.stubs_of_namesakes`). The keys of stubs all
end in the same way: the last part of the path is a name with the extension of stubs. So no
stub is ever written over a file whose name ends otherwise, a model file for one.

Key definitions: `Stub.namesakes`.
Key theorems: `Stub.mem_keys_stubs`, `Stub.size_stubs`, `Stub.last_part`, `Stub.get?_stubs`,
`Stub.stubs_append`, `Stub.stubs_congr`, `Stub.stubs_of_namesakes`.
-/
import ModelStubs.Proofs.Listings
import ModelStubs.Proofs.Routes
import ModelStubs.Stub.Class

namespace ModelStubs
namespace Stub

open Model (DataClass Element Placement)

/-- The key of a stub in the given directory. -/
theorem fileName_eq (p : Placement) (c : DataClass) :
    fileName p c = p.model.directory ++ "/" ++ c.name ++ ".sample" := by
  unfold fileName extension
  rw [String.append_assoc]
  rfl

theorem fileName_eq_iff (p : Placement) (c d : DataClass) :
    fileName p c = fileName p d ↔ c.name = d.name := by
  rw [fileName_eq, fileName_eq, String.append_left_inj, String.append_right_inj]

/-- The keys are those of the classes. -/
theorem mem_keys_stubs {p : Placement} {elements : List Element} {version key : String} :
    key ∈ (stubs p elements version).keys ↔
      ∃ c ∈ elements.filterMap Element.class?, key = fileName p c := by
  unfold stubs
  rw [Listing.mem_keys_ofList, List.map_map, List.mem_map]
  exact ⟨fun ⟨c, hc, e⟩ => ⟨c, hc, e.symm⟩, fun ⟨c, hc, e⟩ => ⟨c, hc, e.symm⟩⟩

/-- There are as many stubs as names of classes. -/
theorem size_stubs (p : Placement) (elements : List Element) (version : String) :
    (stubs p elements version).size =
      ((elements.filterMap Element.class?).map DataClass.name).toFinset.card := by
  unfold stubs
  rw [Listing.size_ofList]
  have himage : ((((elements.filterMap Element.class?).map fun c =>
      (fileName p c, classText p c version)).map Prod.fst)).toFinset =
      ((elements.filterMap Element.class?).map DataClass.name).toFinset.image
        fun name => fileName p (DataClass.named name) := by
    ext key
    simp only [List.mem_toFinset, List.mem_map, Finset.mem_image]
    constructor
    · rintro ⟨_, ⟨c, hc, rfl⟩, rfl⟩
      exact ⟨c.name, ⟨c, hc, rfl⟩, rfl⟩
    · rintro ⟨_, ⟨c, hc, rfl⟩, rfl⟩
      exact ⟨_, ⟨c, hc, rfl⟩, rfl⟩
  rw [himage, Finset.card_image_of_injective]
  intro a b h
  exact (fileName_eq_iff p (DataClass.named a) (DataClass.named b)).mp h

/-- The last name of the path of a stub ends in the extension. -/
theorem last_part {p : Placement} {elements : List Element} {version key : String}
    (h : key ∈ (stubs p elements version).keys) :
    ∃ q, (Disk.FileTree.Route.of key).names.getLast? = some (q ++ ".sample") := by
  obtain ⟨c, -, rfl⟩ := mem_keys_stubs.mp h
  rw [fileName_eq]
  exact Disk.FileTree.last_name_append (by decide) (by decide)

/-! ### Which class counts -/

/-- The classes of the given name, in the order of the elements. -/
def namesakes (name : String) (elements : List Element) : List DataClass :=
  (elements.filterMap Element.class?).filter fun c => c.name == name

/-- Under the key of a name stands the stub of the last class of this name. -/
theorem get?_stubs (p : Placement) (elements : List Element) (version name : String) :
    (stubs p elements version).get? (fileName p (.named name)) =
      (namesakes name elements).getLast?.map fun c => classText p c version := by
  have hkey : ((fun e : String × String => e.1 == fileName p (.named name)) ∘
      fun c => (fileName p c, classText p c version)) = fun c : DataClass => c.name == name := by
    funext c
    have hiff : fileName p c = fileName p (.named name) ↔ c.name = name :=
      fileName_eq_iff p c (.named name)
    exact Bool.eq_iff_iff.mpr (by simpa using hiff)
  rw [stubs, Listing.get?_ofList, Listing.lookup_reverse, List.filter_map, hkey, List.getLast?_map,
    Option.map_map]
  rfl

/-- There is nothing under a key that is not that of a name. -/
theorem get?_stubs_of_ne {p : Placement} {key : String}
    (h : ∀ name, key ≠ fileName p (.named name)) (elements : List Element) (version : String) :
    (stubs p elements version).get? key = none := by
  refine Option.eq_none_iff_forall_ne_some.mpr fun text htext => ?_
  obtain ⟨c, -, hkey⟩ := mem_keys_stubs.mp (Listing.mem_keys_iff.mpr ⟨text, htext⟩)
  exact h c.name (hkey.trans ((fileName_eq_iff p c (.named c.name)).mpr rfl))

/-- Only the last class of each name matters. -/
theorem stubs_congr {xs ys : List Element}
    (h : ∀ name, (namesakes name xs).getLast? = (namesakes name ys).getLast?) (p : Placement)
    (version : String) : stubs p xs version = stubs p ys version := by
  refine Listing.ext_get? fun key => ?_
  by_cases hkey : ∃ name, key = fileName p (.named name)
  · obtain ⟨name, rfl⟩ := hkey
    rw [get?_stubs, get?_stubs, h name]
  · have hne : ∀ name, key ≠ fileName p (.named name) := fun name e => hkey ⟨name, e⟩
    rw [get?_stubs_of_ne hne, get?_stubs_of_ne hne]

/-- Elements that come later override those from before. -/
theorem stubs_append (p : Placement) (xs ys : List Element) (version : String) :
    stubs p (xs ++ ys) version =
      (stubs p xs version).insertAll (stubs p ys version).entries := by
  rw [stubs, List.filterMap_append, List.map_append, Listing.ofList_append]
  rfl

/-- Elements that are not classes have no namesakes. -/
theorem namesakes_filter (name : String) (elements : List Element) :
    namesakes name (elements.filter fun e => e.class?.isSome) = namesakes name elements := by
  have hclasses : (elements.filter fun e => e.class?.isSome).filterMap Element.class? =
      elements.filterMap Element.class? := by
    rw [List.filterMap_filter]
    congr 1
    funext e
    cases e.class? with
    | none => rfl
    | some c => rfl
  rw [namesakes, hclasses, namesakes]

/-- **Which stubs there are.** The keys are the file names of the classes, there are as many
as different names of classes, and under the key of a name stands the stub of the last class
that has it. So the stubs of some elements are overridden by those of the elements behind
them, elements that are not classes make no difference, and neither does the order, as long
as classes of one name come in the same order. -/
theorem stubs_of_namesakes (p : Placement) (version : String) :
    (∀ elements key, key ∈ (stubs p elements version).keys ↔
      ∃ c, Element.ofClass c ∈ elements ∧ fileName p c = key) ∧
    (∀ elements, (stubs p elements version).size =
      ((elements.filterMap Element.class?).map DataClass.name).toFinset.card) ∧
    (∀ elements name, (stubs p elements version).get? (fileName p (.named name)) =
      (namesakes name elements).getLast?.map fun c => classText p c version) ∧
    (∀ xs ys, stubs p (xs ++ ys) version =
      (stubs p xs version).insertAll (stubs p ys version).entries) ∧
    (∀ elements, stubs p (elements.filter fun e => e.class?.isSome) version =
      stubs p elements version) ∧
    ∀ xs ys, (∀ name, namesakes name xs = namesakes name ys) →
      stubs p xs version = stubs p ys version := by
  refine ⟨fun elements key => ?_, fun elements => size_stubs p elements version,
    fun elements name => get?_stubs p elements version name,
    fun xs ys => stubs_append p xs ys version, fun elements => ?_, fun xs ys h => ?_⟩
  · have hclass : ∀ c, c ∈ elements.filterMap Element.class? ↔ Element.ofClass c ∈ elements := by
      intro c
      rw [List.mem_filterMap]
      constructor
      · rintro ⟨_ | _ | _ | _, hm, hc⟩
        · cases hc; exact hm
        all_goals cases hc
      · exact fun hm => ⟨_, hm, rfl⟩
    simp only [mem_keys_stubs, hclass, eq_comm]
  · exact stubs_congr (fun name => by rw [namesakes_filter]) p version
  · exact stubs_congr (fun name => by rw [h name]) p version

/-- Two classes of one name, with another class and a data type between them. -/
def mixedElements : List Element :=
  [.ofClass ⟨"A", "early", []⟩, .ofClass (.named "B"), .ofDataType ⟨"C", ""⟩, .ofClass (.named "A")]

/-- The same classes, the other one first. -/
def movedElements : List Element :=
  [.ofClass (.named "B"), .ofClass ⟨"A", "early", []⟩, .ofClass (.named "A")]

/-- A class may change places with one of another name, and not with one of its own. -/
theorem stubs_of_namesakes_mixed :
    (∀ name, namesakes name mixedElements = namesakes name movedElements) ∧
      stubs (.ofNamespace "") mixedElements "1" = stubs (.ofNamespace "") movedElements "1" := by
  have hsame : ∀ name, namesakes name mixedElements = namesakes name movedElements := by
    intro name
    by_cases ha : "A" = name
    · subst ha
      rfl
    · by_cases hb : "B" = name
      · subst hb
        rfl
      · simp [namesakes, mixedElements, movedElements, Element.class?, DataClass.named, ha, hb]
  exact ⟨hsame, (stubs_of_namesakes (.ofNamespace "") "1").2.2.2.2.2 _ _ hsame⟩

end Stub
end ModelStubs
