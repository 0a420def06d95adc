/-
# Routes of paths below a directory

The route of a path is the list of its names. Joining a relative path to a directory
puts its names behind those of the directory, so the paths of different parts below
one directory have different routes. Whatever stands before it, a text without a
slash ends the last name of its path.

Key theorems: `Disk.FileTree.names_join`, `Disk.FileTree.route_join`,
`Disk.FileTree.last_name_append`, `Disk.FileTree.nameEnding?_eq_some_iff`.
-/
import Mathlib.Data.List.TakeDrop
import Mathlib.Data.List.TakeWhile
import ModelStubs.Disk.Tree
import ModelStubs.Proofs.Keys

namespace ModelStubs

namespace Disk
namespace FileTree

open Output (PlainParts pathOf)

/-- The names that given parts are. -/
def partNames (parts : List (List Char)) : List String := parts.map String.ofList

theorem partNames_injective {ps qs : List (List Char)} (h : partNames ps = partNames qs) :
    ps = qs :=
  (List.map_inj_right fun _ _ => String.ofList_injective).mp h

/-- The names of a text. -/
theorem Route.names_of (text : String) : (Route.of text).names =
    partNames ((Text.pieces '/' text.toList).filter fun p => !p.isEmpty) := rfl

/-- A slash divides a text into its names. -/
theorem names_append_slash (s t : String) :
    (Route.of (s ++ "/" ++ t)).names = (Route.of s).names ++ (Route.of t).names := by
  rw [Route.names_of, ← Output.keyParts, Output.keyParts_append_slash, partNames, List.map_append]
  rfl

/-- The names of a relative path stand behind those of the directory. -/
theorem names_join {root p : Path} (h : p.isAbsolute = false) :
    (Route.of (root.join p).text).names =
      (Route.of root.text).names ++ (Route.of p.text).names := by
  unfold Path.join
  rw [h, Bool.false_or]
  split
  · next he =>
    rw [String.isEmpty_iff.mp he]
    rfl
  · split
    · next hl =>
      obtain ⟨s, hs⟩ := List.getLast?_eq_some_iff.mp hl
      have ht : root.text = String.ofList s ++ "/" ++ "" := by
        rw [← String.toList_inj, hs]
        simp
      have ha := names_append_slash (String.ofList s) ""
      rw [← ht] at ha
      rw [ha]
      have hj : root.text ++ p.text = String.ofList s ++ "/" ++ p.text := by
        rw [← String.toList_inj, String.toList_append, hs]
        simp
      show (Route.of (root.text ++ p.text)).names = _
      rw [hj, names_append_slash]
      show _ = (_ ++ []) ++ _
      rw [List.append_nil]
    · exact names_append_slash root.text p.text

/-- A path of parts has the parts as names. -/
theorem names_pathOf {parts : List (List Char)} (h : PlainParts parts) :
    (Route.of (pathOf parts).text).names = partNames parts :=
  (Route.names_of _).trans (congrArg partNames (Output.keyParts_pathOf h))

/-- The path of parts below a directory does not end in a slash. -/
theorem slash_join {root : Path} {parts : List (List Char)} (h : PlainParts parts) :
    (Route.of (root.join (pathOf parts)).text).slash = false := by
  obtain ⟨c, hp, hne⟩ := Output.getLast_pathOf h
  have hj : (root.join (pathOf parts)).text.toList.getLast? = some c := by
    unfold Path.join
    rw [Output.isAbsolute_pathOf h, Bool.false_or]
    split
    · exact hp
    · split
      · show (root.text ++ (pathOf parts).text).toList.getLast? = some c
        rw [String.toList_append, List.getLast?_append, hp]
        rfl
      · show (root.text ++ "/" ++ (pathOf parts).text).toList.getLast? = some c
        rw [String.toList_append, List.getLast?_append, hp]
        rfl
  show ((root.join (pathOf parts)).text.toList.getLast? == some '/') = false
  rw [hj, beq_eq_false_iff_ne]
  exact fun e => hne (Option.some.inj e)

/-- The route of a path that the system takes is the one its text spells. -/
theorem routeOf_eq_ok {p : Path} {r : Route} (h : routeOf p = .ok r) : r = Route.of p.text := by
  unfold routeOf at h
  split at h
  · cases h
  · split at h
    · cases h
    · split at h
      · cases h
      · cases h
        rfl

/-- The route of a path of parts below a directory. -/
theorem route_join (root : Path) {parts : List (List Char)} (h : PlainParts parts) :
    Route.of (root.join (pathOf parts)).text =
      ⟨(Route.of root.text).names ++ partNames parts, false⟩ := by
  rw [← names_pathOf h, ← names_join (Output.isAbsolute_pathOf h), ← slash_join h]

/-- A text without a slash ends the last name of its path. -/
theorem last_name_append {s t : String} (hs : '/' ∉ t.toList) (hne : t ≠ "") :
    ∃ q, (Route.of (s ++ t)).names.getLast? = some (q ++ t) := by
  obtain ⟨init, q, -, hi⟩ := Text.exists_last_piece '/' hs s.toList
  refine ⟨String.ofList q, ?_⟩
  have hkeep : [q ++ t.toList].filter (fun p => !p.isEmpty) = [q ++ t.toList] := by
    rw [List.filter_eq_self]
    simpa using fun _ => hne
  rw [Route.names_of, String.toList_append, hi, List.filter_append, hkeep, partNames,
    List.map_append]
  show (_ ++ [String.ofList (q ++ t.toList)]).getLast? = _
  rw [List.getLast?_concat, String.ofList_append, String.ofList_toList]

/-! ### Names and components -/

/-- Behind the part that is the last component there are only fillers. -/
theorem split_of_innerComponents {ps : List (List Char)} {n : String}
    (h : (Path.innerComponents ps).getLast? = some (.name n)) :
    ∃ before after, ps = before ++ n.toList :: after ∧ n ≠ "" ∧ n ≠ "." ∧ n ≠ ".." ∧
      ∀ p ∈ after, isFiller p = true := by
  unfold Path.innerComponents at h
  rw [List.getLast?_map, Option.map_eq_some_iff] at h
  obtain ⟨q, hq, hn⟩ := h
  obtain ⟨init, hi⟩ := List.getLast?_eq_some_iff.mp hq
  obtain ⟨as, bs, rfl, -, hb⟩ := List.filter_eq_append_iff.mp hi
  obtain ⟨cs, after, rfl, -, hf, ha⟩ := List.filter_eq_cons_iff.mp hb
  have hf : isFiller q = false := by simpa using hf
  have hq : q ≠ ['.', '.'] ∧ n = String.ofList q := by
    unfold componentOf at hn
    split at hn
    · cases hn
    · next hne => cases hn; exact ⟨hne, rfl⟩
  obtain ⟨hup, rfl⟩ := hq
  refine ⟨as ++ cs, after, by simp, ?_, ?_, ?_, fun p hp => ?_⟩
  · intro e
    rw [String.ofList_eq_empty_iff.mp e] at hf
    cases hf
  · intro e
    have : q = ['.'] := by rw [← String.toList_ofList (l := q), e]; rfl
    rw [this] at hf
    cases hf
  · intro e
    exact hup (by rw [← String.toList_ofList (l := q), e]; rfl)
  · have := List.filter_eq_nil_iff.mp ha p hp
    simpa using this

/-- The file name of a path is its last name that is not a point. -/
theorem names_of_fileName {p : Path} {n : String} (h : p.fileName? = some n) :
    ∃ xs dots, (Route.of p.text).names = xs ++ n :: dots ∧ (∀ d ∈ dots, d = ".") ∧
      n ≠ "." ∧ n ≠ ".." := by
  have hlast : p.components.getLast? = some (.name n) := by
    unfold Path.fileName? at h
    split at h
    · next hs => cases h; exact hs
    · cases h
  have hinner : (Path.innerComponents p.pieces).getLast? = some (.name n) := by
    have hcons : ∀ c cs, c ≠ .name n → (c :: cs : List Component).getLast? = some (.name n) →
        cs.getLast? = some (.name n) := by
      intro c cs hc hcs
      cases cs with
      | nil => cases hcs; exact absurd rfl hc
      | cons d ds => exact hcs
    unfold Path.components at hlast
    split at hlast
    · exact hcons _ _ (by simp) hlast
    · split at hlast
      · next ps hps =>
        rw [hps]
        exact hcons _ _ (by simp) hlast
      · exact hlast
  obtain ⟨before, after, hps, hne, h1, h2, hfill⟩ := split_of_innerComponents hinner
  have hkeep : (!n.toList.isEmpty) = true := by simpa using hne
  refine ⟨partNames (before.filter fun p => !p.isEmpty),
    partNames (after.filter fun p => !p.isEmpty), ?_, ?_, h1, h2⟩
  · have hps : Text.pieces '/' p.text.toList = before ++ n.toList :: after := hps
    rw [Route.names_of, hps, List.filter_append, List.filter_cons, hkeep, partNames,
      List.map_append, if_pos rfl, List.map_cons, String.ofList_toList]
    rfl
  · intro d hd
    obtain ⟨q, hq, rfl⟩ := List.mem_map.mp hd
    obtain ⟨hq, hqe⟩ := List.mem_filter.mp hq
    have hf := hfill q hq
    unfold isFiller at hf
    rw [Bool.or_eq_true] at hf
    rcases hf with hf | hf
    · rw [hf] at hqe
      cases hqe
    · rw [beq_iff_eq.mp hf]

/-- The text of a joined path ends with that of the second. -/
theorem text_join (p q : Path) : ∃ s, (p.join q).text = s ++ q.text := by
  unfold Path.join
  split
  · exact ⟨"", String.empty_append.symm⟩
  · split
    · exact ⟨p.text, rfl⟩
    · exact ⟨p.text ++ "/", rfl⟩

/-- The text of a joined path starts with that of the first, if the second is relative. -/
theorem join_text {p q : Path} (hne : p.text ≠ "") (hq : q.isAbsolute = false) :
    ∃ s, (p.join q).text = p.text ++ s := by
  unfold Path.join
  rw [if_neg (by simpa [hq] using hne)]
  split
  · exact ⟨q.text, rfl⟩
  · exact ⟨"/" ++ q.text, String.append_assoc⟩

/-- If the system takes a path then it takes every path that its text starts with. -/
theorem routeOf_of_append {p q : Path} {s : String} (h : q.text = p.text ++ s)
    (hne : p.text ≠ "") {r : Route} (hr : routeOf q = .ok r) :
    routeOf p = .ok (Route.of p.text) := by
  unfold routeOf at hr ⊢
  rw [h] at hr
  split at hr
  · cases hr
  · next hnul =>
    split at hr
    · cases hr
    · split at hr
      · cases hr
      · next hlimit =>
        have hsize : (p.text ++ s).utf8ByteSize = p.text.utf8ByteSize + s.utf8ByteSize :=
          String.utf8ByteSize_append
        rw [if_neg, if_neg, if_neg]
        · omega
        · simpa using hne
        · intro hmem
          exact hnul (by simpa using Or.inl (by simpa using hmem))

/-- The ending of a name stands behind its last point, if something stands before that. -/
theorem nameEnding?_eq_some_iff {name ending : String} : nameEnding? name = some ending ↔
    '.' ∉ ending.toList ∧ ∃ stem, stem ≠ "" ∧ name = stem ++ ("." ++ ending) := by
  constructor
  · intro h
    unfold nameEnding? at h
    rw [List.span_eq_takeWhile_dropWhile] at h
    have hsplit := List.takeWhile_append_dropWhile (p := (· != '.')) (l := name.toList.reverse)
    have hhead := List.head?_dropWhile_not (· != '.') name.toList.reverse
    split at h
    · cases h
    · cases h
    · next e rest hne hsingle hspan =>
      cases h
      obtain ⟨hfront, hback⟩ := Prod.mk.inj hspan
      rw [hback] at hhead hsplit
      obtain ⟨c, stem, rfl⟩ := List.exists_cons_of_ne_nil hne
      have hc : c = '.' := by simpa using hhead
      have hstem : stem ≠ [] := fun e => hsingle c (by rw [e])
      refine ⟨fun hmem => ?_, String.ofList stem.reverse, ?_, ?_⟩
      · rw [String.toList_ofList, List.mem_reverse, ← hfront] at hmem
        exact absurd (List.mem_takeWhile_imp hmem) (by simp)
      · rw [Ne, String.ofList_eq_empty_iff]
        simpa using hstem
      · rw [← String.toList_inj, ← List.reverse_reverse name.toList, ← hsplit, hfront, hc]
        simp
  · rintro ⟨hdot, stem, hne, rfl⟩
    have hends : ∀ c ∈ ending.toList.reverse, (c != '.') = true := by
      intro c hc
      rw [bne_iff_ne]
      rintro rfl
      exact hdot (List.mem_reverse.mp hc)
    obtain ⟨d, ds, hstem⟩ := List.exists_cons_of_ne_nil
      (mt List.reverse_eq_nil_iff.mp (mt String.toList_eq_nil_iff.mp hne))
    have hreverse : (stem ++ ("." ++ ending)).toList.reverse =
        ending.toList.reverse ++ '.' :: d :: ds := by
      rw [← hstem]
      simp
    unfold nameEnding?
    rw [List.span_eq_takeWhile_dropWhile, hreverse, List.takeWhile_append_of_pos hends,
      List.dropWhile_append_of_pos hends]
    simp

end FileTree
end Disk
end ModelStubs
