/-
# Paths in the order of their bytes

A text is written in bytes, one to four for a character. Of two characters the greater one
has the greater bytes (`Disk.utf8EncodeChar_lt`), so texts are in the order of their bytes
(`Disk.bytesOf_lt`).

The paths below a directory go on with their names where the path of the directory ends
(`Disk.Path.components_below`). So they are in the order of their components, each compared
by its bytes, if the names are in order (`Disk.Path.bytes_below_lt`).

Key definitions: `Disk.bytesOf`, `Disk.Path.bytes`.
Key theorems: `Disk.bytesOf_lt`, `Disk.Path.components_below`, `Disk.Path.bytes_below_lt`.
-/
import Mathlib.Tactic.SplitIfs
import ModelStubs.Proofs.Walks

namespace ModelStubs
namespace Disk

/-! ### The bytes of a text -/

/-- The bytes that a text is written in. -/
def bytesOf (s : String) : List UInt8 := s.toByteArray.data.toList

theorem bytesOf_eq (s : String) : bytesOf s = s.toList.flatMap String.utf8EncodeChar := by
  have h : (String.ofList s.toList).toByteArray = s.toList.utf8Encode := String.toByteArray_ofList
  rw [String.ofList_toList] at h
  rw [bytesOf, h, List.utf8Encode, List.data_toByteArray]

/-- The first byte decides, unless it is the same. -/
theorem cons_ofNat_lt {a b : Nat} {s t : List UInt8} (hb : b < 256) (h : a ≤ b)
    (hst : a = b → s < t) : UInt8.ofNat a :: s < UInt8.ofNat b :: t := by
  rw [List.cons_lt_cons_iff]
  rcases Nat.lt_or_eq_of_le h with h | rfl
  · left
    rw [UInt8.lt_iff_toNat_lt, UInt8.toNat_ofNat', UInt8.toNat_ofNat']
    omega
  · exact .inr ⟨rfl, hst rfl⟩

/-- Of two characters the greater one has the greater bytes, whatever follows. -/
theorem utf8EncodeChar_lt {c d : Char} (h : c < d) (s t : List UInt8) :
    String.utf8EncodeChar c ++ s < String.utf8EncodeChar d ++ t := by
  have hval : c.val.toNat < d.val.toNat := h
  have hd : d.val.toNat < 0x110000 := by
    rcases d.valid with h | h
    · have hlow : d.val.toNat < 0xd800 := h
      omega
    · exact h.2
  unfold String.utf8EncodeChar
  generalize c.val.toNat = m at hval ⊢
  generalize d.val.toNat = n at hval hd ⊢
  dsimp only
  -- byte by byte the greater character has none that is less, and the bytes are not all equal
  split_ifs <;> simp only [List.cons_append, List.nil_append] <;>
    repeat refine cons_ofNat_lt (by omega) (by omega) fun _ => ?_
  all_goals omega

theorem flatMap_utf8EncodeChar_lt : ∀ {xs ys : List Char}, xs < ys →
    xs.flatMap String.utf8EncodeChar < ys.flatMap String.utf8EncodeChar
  | _, [], h => absurd h (List.not_lt_nil _)
  | [], d :: ds, _ => by
    obtain ⟨b, bs, hb⟩ := List.exists_cons_of_ne_nil
      (List.ne_nil_of_length_pos (by rw [String.length_utf8EncodeChar]; exact d.utf8Size_pos) :
        String.utf8EncodeChar d ≠ [])
    rw [List.flatMap_nil, List.flatMap_cons, hb]
    exact List.nil_lt_cons _ _
  | c :: cs, d :: ds, h => by
    rw [List.flatMap_cons, List.flatMap_cons]
    rcases List.cons_lt_cons_iff.mp h with hcd | ⟨rfl, hlt⟩
    · exact utf8EncodeChar_lt hcd _ _
    · exact List.append_left_lt (flatMap_utf8EncodeChar_lt hlt)

/-- Texts are in the order of their bytes. -/
theorem bytesOf_lt {s t : String} (h : s < t) : bytesOf s < bytesOf t := by
  rw [bytesOf_eq, bytesOf_eq]
  exact flatMap_utf8EncodeChar_lt h

/-! ### The bytes of a path -/

/-- The bytes that a component is written in. -/
def Component.bytes : Component → List UInt8
  | .root => bytesOf "/"
  | .here => bytesOf "."
  | .up => bytesOf ".."
  | .name s => bytesOf s

/-- The components of a path by their bytes. -/
def Path.bytes (p : Path) : List (List UInt8) := p.components.map Component.bytes

theorem IsName.plainParts {n : String} (h : IsName n) : Output.PlainParts [n.toList] := by
  refine ⟨by simp, fun part hpart => ?_⟩
  rw [List.mem_singleton.mp hpart]
  refine ⟨by simpa using h.ne_empty, h.no_slash, ?_⟩
  rw [Output.isName, Bool.and_eq_true, bne_iff_ne, bne_iff_ne]
  exact ⟨fun e => h.not_here (String.toList_inj.mp e), fun e => h.not_up (String.toList_inj.mp e)⟩

/-- The path of a name below a directory is the path of a part. -/
theorem Path.child_eq_join (p : Path) (n : String) :
    p.child n = p.join (Output.pathOf [n.toList]) := by
  rw [Output.pathOf_singleton, String.ofList_toList]
  rfl

/-- The names below a directory are further components. -/
theorem Path.components_below : ∀ {ns : List String} {p : Path}, (∀ n ∈ ns, IsName n) →
    (p.below ns).components = p.components ++ ns.map .name
  | [], p, _ => by simp [Path.below]
  | n :: ns, p, h => by
    have hn := h n List.mem_cons_self
    have ih : ((p.child n).below ns).components = (p.child n).components ++ ns.map .name :=
      components_below fun m hm => h m (List.mem_cons_of_mem _ hm)
    have hchild : (p.child n).components = p.components ++ [.name n] := by
      rw [child_eq_join, components_join p hn.plainParts]
      simp [Output.nameComponents]
    have hbelow : p.below (n :: ns) = (p.child n).below ns := rfl
    rw [hbelow, ih, hchild]
    simp

theorem map_bytesOf_lt : ∀ {xs ys : List String}, xs < ys → xs.map bytesOf < ys.map bytesOf
  | _, [], h => absurd h (List.not_lt_nil _)
  | [], _ :: _, _ => List.nil_lt_cons _ _
  | x :: xs, y :: ys, h => by
    rw [List.map_cons, List.map_cons, List.cons_lt_cons_iff]
    rcases List.cons_lt_cons_iff.mp h with hxy | ⟨rfl, hlt⟩
    · exact .inl (bytesOf_lt hxy)
    · exact .inr ⟨rfl, map_bytesOf_lt hlt⟩

/-- Paths below a directory are in the order of their names, by their bytes. -/
theorem Path.bytes_below_lt {p : Path} {ns ms : List String} (hn : ∀ n ∈ ns, IsName n)
    (hm : ∀ n ∈ ms, IsName n) (h : ns < ms) : (p.below ns).bytes < (p.below ms).bytes := by
  have hbytes : ∀ {ns : List String}, (∀ n ∈ ns, IsName n) →
      (p.below ns).bytes = p.bytes ++ ns.map bytesOf := by
    intro ns hns
    rw [bytes, components_below hns, List.map_append, List.map_map]
    rfl
  rw [hbytes hn, hbytes hm]
  exact List.append_left_lt (map_bytesOf_lt h)

end Disk
end ModelStubs
