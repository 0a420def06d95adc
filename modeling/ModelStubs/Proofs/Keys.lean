/-
# Where a key leads

A part of a key is put behind the path only if it is a name, read as a path of its own, and
the parts that are not are just `.` and `..` (`Output.soleName?_eq`). So a key is accepted
exactly if it starts inside and all its parts are plain: none is empty, none holds a
slash, and none is `.` or `..`. An accepted key spells the path of its parts
(`Output.pathOf`), what the path names are the parts in their order, and two accepted
keys lead to one path exactly if they have the same parts.

Key definitions: `Output.isSafeKey`, `Output.Plain`, `Output.PlainParts`,
`Output.nameComponents`, `Output.pathOf`.
Key theorems: `Output.pushParts_eq`, `Output.outputPath_eq`, `Output.outputPath_eq_ok_iff`,
`Output.components_pathOf`, `Output.outputPath_eq_iff`, `Output.outputPath_accepts_safe`.
-/
import ModelStubs.Output.Key
import ModelStubs.Proofs.Pieces

namespace ModelStubs
namespace Output

open Disk (Path Component)

/-- A part that is a name of its own. -/
def isName (part : List Char) : Bool := part != ['.'] && part != ['.', '.']

/-- A key that stays inside the directory that files are written to. -/
def isSafeKey (key : String) : Bool := !startsOutside key && (keyParts key).all isName

/-- A part that is the name of a file or directory. -/
def Plain (part : List Char) : Prop := part ≠ [] ∧ '/' ∉ part ∧ isName part = true

/-- The parts of a path below a directory: at least one, and all of them names. -/
def PlainParts (parts : List (List Char)) : Prop := parts ≠ [] ∧ ∀ part ∈ parts, Plain part

/-- What stands between the slashes of a key, without the places where nothing stands. -/
def segments (key : String) : List (List Char) :=
  (key.toList.splitOn '/').filter fun segment => !segment.isEmpty

/-- The components that the given parts are. -/
def nameComponents (parts : List (List Char)) : List Component :=
  parts.map fun part => .name (String.ofList part)

/-- The path of the given parts. -/
def pathOf (parts : List (List Char)) : Path := ⟨String.ofList (Text.joined '/' parts)⟩

theorem Plain.ne_here {part : List Char} (h : Plain part) : part ≠ ['.'] := by
  intro e
  have hn := h.2.2
  rw [e] at hn
  exact absurd hn (by decide)

theorem Plain.ne_up {part : List Char} (h : Plain part) : part ≠ ['.', '.'] := by
  intro e
  have hn := h.2.2
  rw [e] at hn
  exact absurd hn (by decide)

theorem Plain.not_filler {part : List Char} (h : Plain part) : Disk.isFiller part = false := by
  unfold Disk.isFiller
  rw [Bool.or_eq_false_iff]
  exact ⟨by simpa using h.1, by simpa using h.ne_here⟩

/-! ### The parts of a key -/

/-- The parts are what stands between the slashes, where something stands. -/
theorem keyParts_eq_segments (key : String) : keyParts key = segments key := by
  rw [keyParts, segments, Text.pieces_eq_splitOn]

/-- A slash divides a key into its parts. -/
theorem keyParts_append_slash (s t : String) :
    keyParts (s ++ "/" ++ t) = keyParts s ++ keyParts t := by
  have hs : (s ++ "/" ++ t).toList = s.toList ++ '/' :: t.toList := by simp
  rw [keyParts, hs, Text.pieces_append_sep, List.filter_append, keyParts, keyParts]

theorem startsOutside_eq_false_iff {key : String} :
    startsOutside key = false ↔ ∃ c, key.toList.head? = some c ∧ c ≠ '/' ∧ c ≠ '\\' := by
  unfold startsOutside
  cases key.toList with
  | nil => simp
  | cons c s => simp

/-- A key that starts inside has a first part, and it starts with this part. -/
theorem exists_first_part {key : String} (h : startsOutside key = false) :
    ∃ c s parts, keyParts key = (c :: s) :: parts ∧ key.toList.head? = some c := by
  obtain ⟨c, hc, hslash, -⟩ := startsOutside_eq_false_iff.mp h
  obtain ⟨s, hs⟩ := List.head?_eq_some_iff.mp hc
  obtain ⟨p, ps, hp⟩ := List.exists_cons_of_ne_nil (Text.pieces_ne_nil '/' s)
  refine ⟨c, p, ps.filter fun p => !p.isEmpty, ?_, hc⟩
  rw [keyParts, hs, Text.pieces_cons_ne hslash hp, List.filter_cons_of_pos (by simp)]

theorem keyParts_ne_nil {key : String} (h : startsOutside key = false) : keyParts key ≠ [] := by
  obtain ⟨c, s, parts, hparts, -⟩ := exists_first_part h
  rw [hparts]
  exact List.cons_ne_nil _ _

theorem not_mem_of_mem_keyParts {key : String} {part : List Char} (h : part ∈ keyParts key) :
    '/' ∉ part :=
  Text.not_mem_of_mem_pieces '/' _ part (List.mem_filter.mp h).1

theorem ne_nil_of_mem_keyParts {key : String} {part : List Char} (h : part ∈ keyParts key) :
    part ≠ [] := by
  simpa using (List.mem_filter.mp h).2

theorem plainParts_keyParts {key : String} (h : isSafeKey key = true) :
    PlainParts (keyParts key) := by
  unfold isSafeKey at h
  rw [Bool.and_eq_true, Bool.not_eq_true', List.all_eq_true] at h
  refine ⟨keyParts_ne_nil h.1, fun part hp => ?_⟩
  exact ⟨ne_nil_of_mem_keyParts hp, not_mem_of_mem_keyParts hp, h.2 part hp⟩

/-! ### The path of parts -/

theorem pieces_pathOf {parts : List (List Char)} (h : PlainParts parts) :
    (pathOf parts).pieces = parts := by
  unfold Path.pieces pathOf
  rw [String.toList_ofList]
  exact Text.pieces_joined '/' parts h.1 fun p hp => (h.2 p hp).2.1

theorem head_joined {p : List Char} {c : Char} {s : List Char} (hp : p = c :: s) :
    ∀ ps : List (List Char), (Text.joined '/' (p :: ps)).head? = some c
  | [] => by rw [hp]; rfl
  | q :: qs => by rw [hp]; rfl

/-- The path of parts starts with the first of them. -/
theorem head_pathOf {parts : List (List Char)} (h : PlainParts parts) :
    ∃ c, (pathOf parts).text.toList.head? = some c ∧ c ≠ '/' := by
  obtain ⟨hne, hall⟩ := h
  cases parts with
  | nil => exact absurd rfl hne
  | cons p ps =>
    obtain ⟨hp, hs, -⟩ := hall p (by simp)
    obtain ⟨c, s, rfl⟩ := List.exists_cons_of_ne_nil hp
    refine ⟨c, ?_, fun e => hs (by rw [e]; simp)⟩
    rw [pathOf, String.toList_ofList, head_joined rfl]

theorem isAbsolute_pathOf {parts : List (List Char)} (h : PlainParts parts) :
    (pathOf parts).isAbsolute = false := by
  obtain ⟨c, hc, hne⟩ := head_pathOf h
  unfold Path.isAbsolute
  rw [hc]
  simpa using hne

/-- The parts are all components. -/
theorem innerComponents_plain {parts : List (List Char)} (h : ∀ part ∈ parts, Plain part) :
    Path.innerComponents parts = nameComponents parts := by
  unfold Path.innerComponents
  rw [List.filter_eq_self.mpr fun p hp => by rw [(h p hp).not_filler]; rfl]
  refine List.map_congr_left fun p hp => ?_
  rw [Disk.componentOf, if_neg (h p hp).ne_up]

/-- What the path of parts names. -/
theorem components_pathOf {parts : List (List Char)} (h : PlainParts parts) :
    (pathOf parts).components = nameComponents parts := by
  rw [← innerComponents_plain h.2]
  unfold Path.components
  rw [isAbsolute_pathOf h, pieces_pathOf h, if_neg (by decide)]
  split
  · next ps => exact absurd rfl (h.2 ['.'] (by simp)).ne_here
  · rfl

theorem nameComponents_injective {ps qs : List (List Char)}
    (h : nameComponents ps = nameComponents qs) : ps = qs := by
  refine (List.map_inj_right ?_).mp h
  intro p q e
  injection e with e
  exact String.ofList_injective e

/-- The path of parts ends in the last of them. -/
theorem getLast_pathOf {parts : List (List Char)} (h : PlainParts parts) :
    ∃ c, (pathOf parts).text.toList.getLast? = some c ∧ c ≠ '/' := by
  obtain ⟨last, hlast⟩ := Option.ne_none_iff_exists'.mp (mt List.getLast?_eq_none_iff.mp h.1)
  obtain ⟨hne, hslash, -⟩ := h.2 last (List.mem_of_getLast? hlast)
  obtain ⟨c, hc⟩ := Option.ne_none_iff_exists'.mp (mt List.getLast?_eq_none_iff.mp hne)
  refine ⟨c, ?_, fun e => hslash (e ▸ List.mem_of_getLast? hc)⟩
  rw [pathOf, String.toList_ofList, Text.getLast?_joined '/' hne hlast, hc]

/-! ### Putting parts together -/

theorem pathOf_nil : pathOf [] = ⟨""⟩ := rfl

theorem pathOf_singleton (part : List Char) : pathOf [part] = ⟨String.ofList part⟩ := rfl

/-- Read as a path, a part is a name unless it stands for a directory. -/
theorem soleName?_eq {part : List Char} (hne : part ≠ []) (hs : '/' ∉ part) :
    soleName? part = if isName part then some (String.ofList part) else none := by
  by_cases hn : isName part = true
  · have hplain : PlainParts [part] := ⟨by simp, by simpa using ⟨hne, hs, hn⟩⟩
    rw [soleName?, ← pathOf_singleton, components_pathOf hplain, if_pos hn]
    rfl
  · have hdots : part = ['.'] ∨ part = ['.', '.'] := by
      rwa [isName, Bool.and_eq_true, bne_iff_ne, bne_iff_ne, not_and_or, not_not, not_not] at hn
    rw [if_neg hn]
    rcases hdots with rfl | rfl
    · rfl
    · rfl

/-- The path of one part more. -/
theorem child_pathOf {parts : List (List Char)} {part : List Char} (h : ∀ q ∈ parts, Plain q)
    (hp : Plain part) : (pathOf parts).child (String.ofList part) = pathOf (parts ++ [part]) := by
  have hrel : (pathOf [part]).isAbsolute = false := isAbsolute_pathOf ⟨by simp, by simpa using hp⟩
  rw [Path.child, ← pathOf_singleton, Path.join, hrel, Bool.false_or]
  by_cases hnil : parts = []
  · rw [hnil]
    rfl
  · obtain ⟨c, hc, hslash⟩ := getLast_pathOf ⟨hnil, h⟩
    have htext : ¬ (pathOf parts).text.isEmpty = true := by
      intro he
      rw [String.isEmpty_iff.mp he] at hc
      cases hc
    have hlast : ¬ (pathOf parts).text.toList.getLast? = some '/' := by
      rw [hc]
      exact fun e => hslash (Option.some.inj e)
    have hjoined : Text.joined '/' (parts ++ [part]) = Text.joined '/' parts ++ ['/'] ++ part := by
      rw [Text.joined_append '/' hnil (by simp), List.append_assoc]
      rfl
    rw [if_neg htext, if_neg hlast, pathOf_singleton]
    unfold pathOf
    rw [hjoined, String.ofList_append, String.ofList_append]

/-- Parts are put behind a path if all of them are names. -/
theorem pushParts_eq (key : String) : ∀ {parts before : List (List Char)},
    (∀ q ∈ before, Plain q) → (∀ q ∈ parts, q ≠ [] ∧ '/' ∉ q) →
    pushParts key (pathOf before) parts =
      if parts.all isName then .ok (pathOf (before ++ parts)) else .error (.invalidOutputPath key)
  | [], before, _, _ => by rw [pushParts, List.append_nil, List.all_nil, if_pos rfl]
  | part :: parts, before, hb, hps => by
    obtain ⟨hne, hs⟩ := hps part (by simp)
    rw [pushParts, soleName?_eq hne hs, List.all_cons]
    by_cases hn : isName part = true
    · have hpart : Plain part := ⟨hne, hs, hn⟩
      -- what stands before the next part is names again, so that it goes behind a slash
      have hbefore : ∀ q ∈ before ++ [part], Plain q :=
        List.forall_mem_append.mpr ⟨hb, List.forall_mem_singleton.mpr hpart⟩
      have ih := pushParts_eq key hbefore fun q hq => hps q (List.mem_cons_of_mem _ hq)
      simp only [hn, if_true, Bool.true_and]
      rw [child_pathOf hb hpart, ih, List.append_assoc]
      rfl
    · simp only [hn, Bool.false_and, Bool.false_eq_true, if_false]

/-- A key leads to the path of its parts, unless it is refused. -/
theorem outputPath_eq (key : String) : outputPath key =
    if isSafeKey key then .ok (pathOf (keyParts key)) else .error (.invalidOutputPath key) := by
  have hparts : ∀ q ∈ keyParts key, q ≠ [] ∧ '/' ∉ q :=
    fun q hq => ⟨ne_nil_of_mem_keyParts hq, not_mem_of_mem_keyParts hq⟩
  have hpush := pushParts_eq key (List.forall_mem_nil Plain) hparts
  rw [List.nil_append] at hpush
  rw [outputPath, isSafeKey, ← pathOf_nil, hpush]
  cases startsOutside key with
  | true => rfl
  | false => rfl

/-- An accepted key leads to the path of its parts. -/
theorem outputPath_eq_ok_iff {key : String} {path : Path} :
    outputPath key = .ok path ↔ isSafeKey key = true ∧ path = pathOf (keyParts key) := by
  rw [outputPath_eq]
  split
  · next h =>
    constructor
    · intro e; cases e; exact ⟨h, rfl⟩
    · rintro ⟨-, rfl⟩; rfl
  · next h =>
    constructor
    · intro e; cases e
    · rintro ⟨hs, -⟩; exact absurd hs h

theorem exists_outputPath_iff {key : String} :
    (∃ path, outputPath key = .ok path) ↔ isSafeKey key = true := by
  simp only [outputPath_eq_ok_iff, exists_and_left, exists_eq, and_true]

/-! ### Places -/

/-- Different parts are different places. -/
theorem eq_of_components_pathOf {ps qs : List (List Char)} (hp : PlainParts ps)
    (hq : PlainParts qs) (h : (pathOf ps).components = (pathOf qs).components) : ps = qs := by
  rw [components_pathOf hp, components_pathOf hq] at h
  exact nameComponents_injective h

theorem pathOf_injective {ps qs : List (List Char)} (hp : PlainParts ps) (hq : PlainParts qs)
    (h : pathOf ps = pathOf qs) : ps = qs := by
  rw [← pieces_pathOf hp, h, pieces_pathOf hq]

theorem components_outputPath {key : String} {path : Path} (h : outputPath key = .ok path) :
    path.components = nameComponents (keyParts key) := by
  obtain ⟨hs, rfl⟩ := outputPath_eq_ok_iff.mp h
  exact components_pathOf (plainParts_keyParts hs)

/-- Paths of accepted keys are equal if they name the same. -/
theorem eq_of_components_outputPath {k k' : String} {p p' : Path} (h : outputPath k = .ok p)
    (h' : outputPath k' = .ok p') (hc : p.components = p'.components) : p = p' := by
  obtain ⟨hs, rfl⟩ := outputPath_eq_ok_iff.mp h
  obtain ⟨hs', rfl⟩ := outputPath_eq_ok_iff.mp h'
  rw [eq_of_components_pathOf (plainParts_keyParts hs) (plainParts_keyParts hs') hc]

/-- Accepted keys lead to one path exactly if they have the same parts. -/
theorem outputPath_eq_iff {k k' : String} {p p' : Path} (h : outputPath k = .ok p)
    (h' : outputPath k' = .ok p') : p = p' ↔ keyParts k = keyParts k' := by
  obtain ⟨hs, rfl⟩ := outputPath_eq_ok_iff.mp h
  obtain ⟨hs', rfl⟩ := outputPath_eq_ok_iff.mp h'
  constructor
  · exact pathOf_injective (plainParts_keyParts hs) (plainParts_keyParts hs')
  · intro e; rw [e]

/-! ### What is accepted -/

/-- The parts of a path of parts are these. -/
theorem keyParts_pathOf {parts : List (List Char)} (h : PlainParts parts) :
    keyParts (pathOf parts).text = parts := by
  have hp : Text.pieces '/' (pathOf parts).text.toList = parts := pieces_pathOf h
  rw [keyParts, hp, List.filter_eq_self.mpr fun p hm => by simpa using (h.2 p hm).1]

/-- The path of an accepted key starts as the key does. -/
theorem head_pathOf_keyParts {key : String} (h : startsOutside key = false) :
    (pathOf (keyParts key)).text.toList.head? = key.toList.head? := by
  obtain ⟨c, s, parts, hparts, hc⟩ := exists_first_part h
  rw [hparts, pathOf, String.toList_ofList, head_joined rfl, hc]

/-- It is all the same whether empty parts are looked at. -/
theorem all_isName_iff (parts : List (List Char)) :
    (parts.filter fun part => !part.isEmpty).all isName = true ↔
      ∀ part ∈ parts, part ≠ ['.'] ∧ part ≠ ['.', '.'] := by
  rw [List.all_eq_true]
  simp only [List.mem_filter, isName, Bool.and_eq_true, bne_iff_ne, ne_eq]
  constructor
  · intro h part hm
    by_cases hnil : part = []
    · simp [hnil]
    · exact h part ⟨hm, by simpa using hnil⟩
  · exact fun h part hm => h part hm.1

/-- An accepted key is one that starts inside, without a part that leads elsewhere. -/
theorem isSafeKey_iff {key : String} : isSafeKey key = true ↔
    startsOutside key = false ∧
      ∀ segment ∈ key.toList.splitOn '/', segment ≠ ['.'] ∧ segment ≠ ['.', '.'] := by
  rw [isSafeKey, Bool.and_eq_true, Bool.not_eq_true', keyParts_eq_segments, segments,
    all_isName_iff]

/-- The text of the path of an accepted key is accepted, and it leads to the same path. -/
theorem outputPath_text {key : String} {path : Path} (h : outputPath key = .ok path) :
    outputPath path.text = .ok path := by
  obtain ⟨hs, rfl⟩ := outputPath_eq_ok_iff.mp h
  have hplain := plainParts_keyParts hs
  have hinside := (isSafeKey_iff.mp hs).1
  have hstart : startsOutside (pathOf (keyParts key)).text = false := by
    rw [startsOutside_eq_false_iff, head_pathOf_keyParts hinside]
    exact startsOutside_eq_false_iff.mp hinside
  rw [outputPath_eq_ok_iff, keyParts_pathOf hplain]
  refine ⟨?_, rfl⟩
  rw [isSafeKey, hstart, keyParts_pathOf hplain, Bool.not_false, Bool.true_and, List.all_eq_true]
  exact fun part hp => (hplain.2 part hp).2.2

/-- **Which keys are accepted, and where they lead.** A key is accepted if and only if it is
not empty, starts with neither slash nor backslash, and has neither `.` nor `..` between
two slashes or at an end; any other is named by the failure. The path of an accepted key
is relative and its components are the names in the key, in their order. Keys lead to one
path exactly if they have the same names, and the text of the path is such a key. -/
theorem outputPath_accepts_safe (key : String) :
    ((∃ path, outputPath key = .ok path) ↔
      key ≠ "" ∧ key.toList.head? ≠ some '/' ∧ key.toList.head? ≠ some '\\' ∧
        ∀ segment ∈ key.toList.splitOn '/', segment ≠ ['.'] ∧ segment ≠ ['.', '.']) ∧
    ((∃ path, outputPath key = .ok path) ∨ outputPath key = .error (.invalidOutputPath key)) ∧
    ∀ path, outputPath key = .ok path →
      path.isAbsolute = false ∧ path.components ≠ [] ∧
      path.components = (segments key).map (fun segment => .name (String.ofList segment)) ∧
      outputPath path.text = .ok path ∧
      ∀ other otherPath, outputPath other = .ok otherPath →
        (path = otherPath ↔ segments key = segments other) ∧
        (path.components = otherPath.components ↔ segments key = segments other) := by
  have hstart : startsOutside key = false ↔
      key ≠ "" ∧ key.toList.head? ≠ some '/' ∧ key.toList.head? ≠ some '\\' := by
    rw [startsOutside_eq_false_iff, ne_eq, ← String.toList_eq_nil_iff]
    cases key.toList with
    | nil => simp
    | cons c s => simp
  refine ⟨?_, ?_, fun path h => ?_⟩
  · rw [exists_outputPath_iff, isSafeKey_iff, hstart, and_assoc, and_assoc]
  · rw [exists_outputPath_iff, outputPath_eq]
    by_cases hk : isSafeKey key = true
    · exact .inl hk
    · exact .inr (if_neg hk)
  · have hcomponents := components_outputPath h
    have hplain := plainParts_keyParts (outputPath_eq_ok_iff.mp h).1
    refine ⟨?_, ?_, ?_, outputPath_text h, fun other otherPath h' => ?_⟩
    · rw [(outputPath_eq_ok_iff.mp h).2, isAbsolute_pathOf hplain]
    · rw [hcomponents]
      exact mt List.map_eq_nil_iff.mp hplain.1
    · rw [hcomponents, keyParts_eq_segments]
      rfl
    · have hsame : path = otherPath ↔ segments key = segments other := by
        rw [outputPath_eq_iff h h', keyParts_eq_segments, keyParts_eq_segments]
      refine ⟨hsame, ?_⟩
      rw [← hsame]
      exact ⟨eq_of_components_outputPath h h', fun e => congrArg Path.components e⟩

/-- Points within a name and backslashes behind the start do no harm, and slashes that are
repeated or at the end do not count. -/
theorem outputPath_accepts_safe_dots :
    outputPath "a\\b//.../..c/" = .ok ⟨"a\\b/.../..c"⟩ ∧
    Path.components ⟨"a\\b/.../..c"⟩ = [.name "a\\b", .name "...", .name "..c"] ∧
    outputPath "a\\b/.../..c" = .ok ⟨"a\\b/.../..c"⟩ ∧
    segments "a\\b//.../..c/" = segments "a\\b/.../..c" := by
  have hkey : outputPath "a\\b//.../..c/" = .ok ⟨"a\\b/.../..c"⟩ := rfl
  obtain ⟨-, -, hpath⟩ := outputPath_accepts_safe "a\\b//.../..c/"
  obtain ⟨-, -, hcomponents, htext, hsame⟩ := hpath _ hkey
  exact ⟨hkey, hcomponents.trans rfl, htext, (hsame _ _ htext).1.mp rfl⟩

end Output
end ModelStubs
