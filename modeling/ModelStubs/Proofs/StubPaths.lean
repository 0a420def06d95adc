/-
# Where stubs are put

The key of a stub is made from the namespace of the model and the name of the class, and
neither is looked at before the key is. So what decides whether a stub can be written is
how the key comes out (`Stub.outputPath_fileName`). The points of the namespace become
slashes: none of its parts can be `.` or `..`, but a point at its start makes a key that
starts outside, as a slash does. The name of the class stands at the end, with the
extension behind it: its last part is never refused, whatever it is, and any other part
is if it is `.` or `..`.

The parts of the path in their order are those of the namespace, `model`, and those of the
class. A namespace of names with points between them is read back from its parts, although
one of the names may be `model` itself, and a name of a class without slashes is read back
from the last part. So stubs of different classes never go to the same place, unless the
two have both the namespace and the name in common (`Stub.eq_of_outputPath_fileName`).

Key definitions: `Stub.namespaceParts`, `Stub.IsDotted`.
Key theorems: `Stub.keyParts_fileName`, `Stub.startsOutside_fileName_iff`,
`Stub.outputPath_fileName`, `Stub.joined_namespaceParts`, `Stub.eq_of_outputPath_fileName`.
-/
import ModelStubs.Proofs.StubFiles

namespace ModelStubs
namespace Stub

open Model (DataClass Placement slashed)
open Output (keyParts segments isName isSafeKey startsOutside outputPath nameComponents)

/-- What stands between the points and slashes of a namespace, without the places where
nothing stands. -/
def namespaceParts (space : String) : List (List Char) :=
  (space.toList.splitOnP fun c => c == '.' || c == '/').filter fun part => !part.isEmpty

/-- A namespace that is empty, or names with points between them. -/
def IsDotted (space : String) : Prop :=
  space = "" ∨ ∀ part ∈ space.toList.splitOn '.', part ≠ [] ∧ '/' ∉ part

/-! ### The directory of a namespace -/

theorem slashed_append (s t : String) : slashed (s ++ t) = slashed s ++ slashed t := by
  simp only [slashed, String.toList_append, List.map_append, String.ofList_append]

/-- With slashes for the points, a text is cut at both. -/
theorem pieces_slashed : ∀ s : List Char,
    Text.pieces '/' (s.map fun c => if c = '.' then '/' else c) =
      s.splitOnP fun c => c == '.' || c == '/'
  | [] => List.splitOnP_nil.symm
  | c :: s => by
    have ih := pieces_slashed s
    rw [List.map_cons, List.splitOnP_cons_eq_if_modifyHead, ← ih]
    by_cases hpoint : c = '.'
    · rw [if_pos hpoint, Text.pieces_cons_sep, if_pos (by simp [hpoint])]
    · rw [if_neg hpoint]
      by_cases hslash : c = '/'
      · rw [hslash, Text.pieces_cons_sep, if_pos (by decide)]
      · obtain ⟨p, ps, hp⟩ := List.exists_cons_of_ne_nil (Text.pieces_ne_nil '/'
          (s.map fun c => if c = '.' then '/' else c))
        rw [Text.pieces_cons_ne hslash hp, if_neg (by simp [hpoint, hslash]), hp,
          List.modifyHead_cons]

theorem keyParts_slashed (space : String) : keyParts (slashed space) = namespaceParts space := by
  rw [keyParts, slashed, String.toList_ofList, pieces_slashed, namespaceParts]

/-- The directory of a namespace has its parts, and `model` behind them. -/
theorem keyParts_directory (space : String) :
    keyParts (Placement.ofNamespace space).model.directory =
      namespaceParts space ++ ["model".toList] := by
  show keyParts (slashed (Placement.modelName space)) = _
  unfold Placement.modelName
  split
  · next h =>
    rw [String.isEmpty_iff.mp h]
    rfl
  · have hmodel : slashed ".model" = "/" ++ "model" := rfl
    rw [slashed_append, hmodel, ← String.append_assoc, Output.keyParts_append_slash,
      keyParts_slashed]
    rfl

/-- The key of a stub has the parts of the namespace, `model`, and the parts of the name. -/
theorem keyParts_fileName (space : String) (c : DataClass) :
    keyParts (fileName (.ofNamespace space) c) =
      namespaceParts space ++ "model".toList :: segments (c.name ++ ".sample") := by
  rw [fileName_eq, String.append_assoc, Output.keyParts_append_slash, keyParts_directory,
    List.append_assoc, Output.keyParts_eq_segments]
  rfl

/-! ### Which stubs can be written -/

/-- No part of a namespace is refused: the points are gone. -/
theorem isName_of_mem_namespaceParts {space : String} {part : List Char}
    (h : part ∈ namespaceParts space) : isName part = true := by
  have hpoint : '.' ∉ (slashed space).toList := by
    rw [slashed, String.toList_ofList, List.mem_map]
    rintro ⟨c, -, hc⟩
    split at hc
    · exact absurd hc (by decide)
    · next hne => exact hne hc
  have hpart : '.' ∉ part := by
    rw [← keyParts_slashed] at h
    have hwithin := Text.infix_joined '/' (List.mem_filter.mp h).1
    rw [Text.joined_pieces] at hwithin
    exact fun hm => hpoint (hwithin.subset hm)
  rw [isName, Bool.and_eq_true, bne_iff_ne, bne_iff_ne]
  constructor
  · rintro rfl
    exact hpart (by simp)
  · rintro rfl
    exact hpart (by simp)

/-- The key of a stub starts as the namespace does, with a slash for a point. -/
theorem head_fileName {space : String} {ch : Char} (h : space.toList.head? = some ch)
    (c : DataClass) : (fileName (.ofNamespace space) c).toList.head? =
      some (if ch = '.' then '/' else ch) := by
  obtain ⟨s, hs⟩ := List.head?_eq_some_iff.mp h
  have hne : ¬ space.isEmpty = true := by
    intro he
    rw [String.isEmpty_iff.mp he] at h
    cases h
  have hname : Placement.modelName space = space ++ ".model" := if_neg hne
  have hdirectory : (Placement.ofNamespace space).model.directory = slashed (space ++ ".model") :=
    congrArg slashed hname
  rw [fileName_eq, hdirectory, slashed, String.append_assoc, String.append_assoc,
    String.toList_append, String.toList_ofList, String.toList_append, hs]
  rfl

/-- The key of a stub starts inside if the namespace does, and has no point there. -/
theorem startsOutside_fileName_iff (space : String) (c : DataClass) :
    startsOutside (fileName (.ofNamespace space) c) = false ↔
      space = "" ∨ ∃ ch, space.toList.head? = some ch ∧ ch ≠ '.' ∧ ch ≠ '/' ∧ ch ≠ '\\' := by
  rw [Output.startsOutside_eq_false_iff]
  cases hhead : space.toList.head? with
  | none =>
    have hnil : space = "" := String.toList_eq_nil_iff.mp (List.head?_eq_none_iff.mp hhead)
    refine iff_of_true ⟨'m', ?_, by decide, by decide⟩ (.inl hnil)
    rw [hnil, fileName_eq, String.append_assoc, String.append_assoc, String.toList_append]
    rfl
  | some ch =>
    have hne : space ≠ "" := by
      rintro rfl
      cases hhead
    rw [head_fileName hhead]
    by_cases hpoint : ch = '.'
    · simp [hpoint, hne]
    · simp [hpoint, hne]

/-- The last part of a name is not refused, because it has the extension behind it. -/
theorem all_isName_segments (name : String) :
    (segments (name ++ ".sample")).all isName = true ↔
      ∀ segment ∈ (name.toList.splitOn '/').dropLast, segment ≠ ['.'] ∧ segment ≠ ['.', '.'] := by
  have hslash : '/' ∉ ".sample".toList := by decide
  obtain ⟨ps, p, hname, hsample⟩ := Text.exists_last_piece '/' hslash name.toList
  have hlast : p ++ ".sample".toList ≠ ['.'] ∧ p ++ ".sample".toList ≠ ['.', '.'] := by
    constructor
    · intro e
      simpa using congrArg List.length e
    · intro e
      simpa using congrArg List.length e
  rw [segments, Output.all_isName_iff, String.toList_append, ← Text.pieces_eq_splitOn, hsample,
    ← Text.pieces_eq_splitOn, hname, List.dropLast_concat]
  simp only [List.forall_mem_append, List.forall_mem_singleton, hlast, and_true, ne_eq,
    not_false_eq_true]

/-- **Which stubs can be written, and where to.** The stub of a class can be written if and
only if the namespace is empty or starts with neither a point nor a slash nor a backslash,
and the name of the class has neither `.` nor `..` before one of its slashes. Its path then
consists of what stands between the points and slashes of the namespace, then `model`, and
then what stands between the slashes of the name with the extension behind it. -/
theorem outputPath_fileName (space : String) (c : DataClass) :
    ((∃ path, outputPath (fileName (.ofNamespace space) c) = .ok path) ↔
      (space = "" ∨ ∃ ch, space.toList.head? = some ch ∧ ch ≠ '.' ∧ ch ≠ '/' ∧ ch ≠ '\\') ∧
      ∀ segment ∈ (c.name.toList.splitOn '/').dropLast,
        segment ≠ ['.'] ∧ segment ≠ ['.', '.']) ∧
    ∀ path, outputPath (fileName (.ofNamespace space) c) = .ok path →
      path.components =
        nameComponents (namespaceParts space ++ "model".toList :: segments (c.name ++ ".sample")) := by
  have hspace : (namespaceParts space).all isName = true :=
    List.all_eq_true.mpr fun part hm => isName_of_mem_namespaceParts hm
  have hmodel : isName "model".toList = true := by decide
  constructor
  · rw [Output.exists_outputPath_iff, isSafeKey, keyParts_fileName, List.all_append, List.all_cons,
      hspace, hmodel, Bool.true_and, Bool.true_and, Bool.and_eq_true, Bool.not_eq_true',
      startsOutside_fileName_iff, all_isName_segments]
  · intro path h
    rw [Output.components_outputPath h, keyParts_fileName]

/-- A class may be called `..` at the end of its name, and what is empty is left out of the
namespace and of the name. -/
theorem outputPath_fileName_dots :
    outputPath (fileName (.ofNamespace "org..isda/") (.named "a//..")) =
      .ok ⟨"org/isda/model/a/...sample"⟩ ∧
    Disk.Path.components ⟨"org/isda/model/a/...sample"⟩ =
      [.name "org", .name "isda", .name "model", .name "a", .name "...sample"] := by
  have hkey : outputPath (fileName (.ofNamespace "org..isda/") (.named "a//..")) =
      .ok ⟨"org/isda/model/a/...sample"⟩ := rfl
  exact ⟨hkey, ((outputPath_fileName "org..isda/" (.named "a//..")).2 _ hkey).trans rfl⟩

/-! ### Stubs of different classes -/

/-- A namespace of names with points between them is read back from its parts. -/
theorem joined_namespaceParts {space : String} (h : IsDotted space) :
    Text.joined '.' (namespaceParts space) = space.toList := by
  rcases h with rfl | h
  · rfl
  · rw [← Text.pieces_eq_splitOn] at h
    -- there are no slashes, so that the namespace is divided at its points alone
    have hchars : ∀ part ∈ Text.pieces '.' space.toList, ∀ ch ∈ part,
        (ch == '.' || ch == '/') = false := by
      intro part hp ch hch
      have hpoint : ch ≠ '.' := fun e => Text.not_mem_of_mem_pieces '.' _ part hp (e ▸ hch)
      have hslash : ch ≠ '/' := fun e => (h part hp).2 (e ▸ hch)
      simp [hpoint, hslash]
    have hsplit := Text.splitOnP_joined '.' (fun ch => ch == '.' || ch == '/') (by decide)
      (Text.pieces_ne_nil '.' _) hchars
    rw [Text.joined_pieces] at hsplit
    rw [namespaceParts, hsplit, List.filter_eq_self.mpr fun part hp => by simpa using (h part hp).1,
      Text.joined_pieces]

/-- A name without slashes is one part of the key. -/
theorem segments_sample {name : String} (h : '/' ∉ name.toList) :
    segments (name ++ ".sample") = [name.toList ++ ".sample".toList] := by
  have hslash : '/' ∉ (name ++ ".sample").toList := by
    rw [String.toList_append, List.mem_append, not_or]
    exact ⟨h, by decide⟩
  rw [segments, ← Text.pieces_eq_splitOn, Text.pieces_of_not_mem '/' _ hslash,
    List.filter_cons_of_pos (by simp), String.toList_append]
  rfl

/-- **Stubs of different classes are different files.** Of namespaces that are empty or names
with points between them, and names of classes without slashes, at most one of each leads
to a path. -/
theorem eq_of_outputPath_fileName {space space' : String} {c c' : DataClass} {path : Disk.Path}
    (hs : IsDotted space) (hs' : IsDotted space') (hc : '/' ∉ c.name.toList)
    (hc' : '/' ∉ c'.name.toList)
    (hp : outputPath (fileName (.ofNamespace space) c) = .ok path)
    (hp' : outputPath (fileName (.ofNamespace space') c') = .ok path) :
    space = space' ∧ c.name = c'.name := by
  have hparts := (Output.outputPath_eq_iff hp hp').mp rfl
  rw [keyParts_fileName, keyParts_fileName, segments_sample hc, segments_sample hc'] at hparts
  -- `model` may be a part of the namespace too, so that the parts are compared from the end
  obtain ⟨hspace, hend⟩ := List.append_inj' hparts rfl
  constructor
  · rw [← String.toList_inj, ← joined_namespaceParts hs, hspace, joined_namespaceParts hs']
  · have hname : c.name.toList ++ ".sample".toList = c'.name.toList ++ ".sample".toList := by
      simpa using hend
    rw [← String.toList_inj, List.append_cancel_right hname]

/-- A namespace may have a part `model` of its own, and a class the extension in its name. -/
theorem eq_of_outputPath_fileName_nested :
    IsDotted "org.model" ∧ '/' ∉ "A.sample".toList ∧
    outputPath (fileName (.ofNamespace "org.model") ⟨"A.sample", "one", []⟩) =
      .ok ⟨"org/model/model/A.sample.sample"⟩ ∧
    outputPath (fileName (.ofNamespace "org.model") ⟨"A.sample", "another", []⟩) =
      .ok ⟨"org/model/model/A.sample.sample"⟩ ∧
    "org.model" = "org.model" ∧ "A.sample" = "A.sample" := by
  have hspace : IsDotted "org.model" := .inr (by decide)
  have hname : '/' ∉ "A.sample".toList := by decide
  have hone : outputPath (fileName (.ofNamespace "org.model") ⟨"A.sample", "one", []⟩) =
      .ok ⟨"org/model/model/A.sample.sample"⟩ := rfl
  have hanother : outputPath (fileName (.ofNamespace "org.model") ⟨"A.sample", "another", []⟩) =
      .ok ⟨"org/model/model/A.sample.sample"⟩ := rfl
  exact ⟨hspace, hname, hone, hanother,
    eq_of_outputPath_fileName hspace hspace hname hname hone hanother⟩

end Stub
end ModelStubs
