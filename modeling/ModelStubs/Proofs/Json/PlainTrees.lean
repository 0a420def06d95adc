/-
# Plain trees

The plain trees are built from null, truth values, whole numbers of 64 bits and strings.
They are readable wherever their depth fits in (`Json.Tree.Plain.readable`).

A tree whose tokens are proper has a text, the one without spaces
(`Json.Tree.Proper.writes`).

Key definitions: `Json.Tree.IsText`, `Json.PlainToken`, `Json.Tree.Plain`,
`Json.Tree.compact`, `Json.Tree.Proper`.
Key theorems: `Json.Tree.Plain.readable`, `Json.Tree.Proper.writes`.
-/
import Mathlib.Algebra.Group.Nat.Defs
import ModelStubs.Proofs.Json.ReadTexts

namespace ModelStubs
namespace Json

/-! ### Strings -/

/-- The tree is a string that reads as `s`. -/
def Tree.IsText (t : Tree) (s : String) : Prop :=
  ∃ w, t = .scalar w ∧ head w = .ok (.scalar (.text s) [])

theorem label_iff {δ : Type} {choose : String → Option δ} {t : Tree} {d : δ} :
    Meaning.label choose t d ↔ ∃ l, t.IsText l ∧ choose l = some d := by
  refine exists_congr fun l => and_congr_left' ?_
  constructor
  · rintro ⟨w, v, rfl, hw, hv⟩
    refine ⟨w, rfl, ?_⟩
    cases v with
    | text s => cases hv; exact hw
    | null => cases hv
    | flag b => cases hv
    | number n => cases hv
  · rintro ⟨w, rfl, hw⟩
    exact ⟨w, .text l, rfl, hw, rfl⟩

theorem Tree.IsText.unique {t : Tree} {s s' : String} (h : t.IsText s) (h' : t.IsText s') :
    s = s' := by
  obtain ⟨w, rfl, hw⟩ := h
  obtain ⟨_, e, hw'⟩ := h'
  cases e
  cases hw.symm.trans hw'
  rfl

/-! ### Plain trees -/

/-- A word, a whole number of 64 bits or a quoted string all of whose escapes are
characters. -/
inductive PlainToken : List Char → Prop
  | null : PlainToken ['n', 'u', 'l', 'l']
  | yes : PlainToken ['t', 'r', 'u', 'e']
  | no : PlainToken ['f', 'a', 'l', 's', 'e']
  | natural {n : Nat} : n ≤ 2 ^ 64 - 1 → PlainToken (Nat.toDigits 10 n)
  | negative {n : Nat} : n ≤ 2 ^ 63 → PlainToken ('-' :: Nat.toDigits 10 n)
  | text {w : List Char} {s : String} : keyName w = some s → PlainToken w

/-- Built from plain tokens and from names, with brackets nested at most this deep. -/
inductive Tree.Plain : Nat → Tree → Prop
  | scalar {depth : Nat} {w : List Char} : PlainToken w → Tree.Plain depth (.scalar w)
  | list {depth : Nat} {ts : List Tree} : (∀ t ∈ ts, Tree.Plain depth t) →
      Tree.Plain (depth + 1) (.list ts)
  | object {depth : Nat} {ms : List (List Char × Tree)} : KeysRead ms →
      (∀ m ∈ ms, Tree.Plain depth m.2) → Tree.Plain (depth + 1) (.object ms)

/-- A quoted string is read as the name that it spells as a key. -/
theorem head_of_keyName {w : List Char} {s : String} (h : keyName w = some s) :
    head w = .ok (.scalar (.text s) []) := by
  unfold keyName at h
  split at h
  · next name hk =>
    cases h
    unfold keyText at hk
    split at hk
    · cases hk
    · next c q =>
      split at hk
      · next hc =>
        subst hc
        split at hk
        · cases hk
        · next cs t hq =>
          cases hk
          rw [head, skipSpace_cons rfl]
          show textHead q = _
          rw [textHead, hq]
      · cases hk
  · cases h

/-- A negative number of 64 bits is read. -/
theorem head_negative {n : Nat} (h : n ≤ 2 ^ 63) :
    head ('-' :: Nat.toDigits 10 n) = .ok (.scalar (.number (wholeNumber true n)) []) := by
  have hends : EndsNumber [] := nofun
  have hscan : Literal.scan .valueEnds ('-' :: Nat.toDigits 10 n) =
      .ok (⟨true, Nat.toDigits 10 n, [], none⟩, []) := by
    have hwhole := scanWhole_toDigits .valueEnds n hends
    rw [List.append_nil] at hwhole
    rw [scan_minus]
    unfold scanUnsigned
    simp only [hwhole, scanFraction_ends .valueEnds hends, scanExponent_ends .valueEnds hends]
  have habsorb : absorb largestWord 0 (Nat.toDigits 10 n) = (n, []) := by
    have hdigits := Nat.ofDigitChars_ten_toDigits (n := n)
    have hle : Nat.ofDigitChars 10 (Nat.toDigits 10 n) 0 ≤ largestWord := by
      rw [hdigits]
      unfold largestWord UInt64.size
      omega
    rw [absorb_eq hle, hdigits]
  have hnumber : Literal.number ⟨true, Nat.toDigits 10 n, [], none⟩ = .ok (wholeNumber true n) := by
    unfold Literal.number
    rw [habsorb]
    rfl
  rw [head_number (.inl rfl), numberHead, readNumber, hscan]
  simp only [hnumber]

theorem PlainToken.exists_head {w : List Char} (h : PlainToken w) :
    ∃ v, head w = .ok (.scalar v []) := by
  cases h with
  | null => exact ⟨_, rfl⟩
  | yes => exact ⟨_, rfl⟩
  | no => exact ⟨_, rfl⟩
  | @natural n hn =>
    have hexact : (Scalar.number (.natural n)).Exact := hn
    have hends : EndsNumber [] := nofun
    have hread := head_written hexact hends
    rw [List.append_nil] at hread
    exact ⟨_, hread⟩
  | negative hn => exact ⟨_, head_negative hn⟩
  | text hs => exact ⟨_, head_of_keyName hs⟩

/-- A plain tree is readable where its depth fits in. -/
theorem Tree.Plain.readable {depth : Nat} {t : Tree} (h : t.Plain depth) :
    ∀ {room : Nat}, depth ≤ room → t.Readable room := by
  induction h with
  | scalar hw => exact fun _ => readable_scalar_iff.mpr hw.exists_head
  | list _ ih =>
    intro room hroom
    exact readable_list_iff.mpr ⟨by omega, fun t ht => ih t ht (by omega)⟩
  | object hkeys _ ih =>
    intro room hroom
    exact readable_object_iff.mpr ⟨by omega, hkeys, fun m hm => ih m hm (by omega)⟩

/-! ### The text without spaces -/

mutual
/-- The text of the tree without spaces. -/
def Tree.compact : Tree → List Char
  | .scalar w => w
  | .list ts => '[' :: compactItems true ts
  | .object ms => '\x7b' :: compactEntries true ms

/-- The entries of a list, with the closing bracket. -/
def compactItems (first : Bool) : List Tree → List Char
  | [] => [']']
  | t :: ts => lead first ++ (t.compact ++ compactItems false ts)

/-- The entries of an object, with the closing bracket. -/
def compactEntries (first : Bool) : List (List Char × Tree) → List Char
  | [] => ['\x7d']
  | (k, t) :: ms => lead first ++ (k ++ ':' :: (t.compact ++ compactEntries false ms))
end

/-- The tokens of the tree are tokens, and its keys are keys. -/
inductive Tree.Proper : Tree → Prop
  | scalar {w : List Char} : IsToken w → Tree.Proper (.scalar w)
  | list {ts : List Tree} : (∀ t ∈ ts, Tree.Proper t) → Tree.Proper (.list ts)
  | object {ms : List (List Char × Tree)} : (∀ m ∈ ms, IsKey m.1) →
      (∀ m ∈ ms, Tree.Proper m.2) → Tree.Proper (.object ms)

theorem keyName_quote (s : String) : keyName (quote s) = some s := by
  have hread := keyText_quote s []
  rw [List.append_nil] at hread
  rw [keyName, hread]

theorem isText_quote (s : String) : (Tree.scalar (quote s)).IsText s :=
  ⟨quote s, rfl, head_of_keyName (keyName_quote s)⟩

theorem isKey_quote (s : String) : IsKey (quote s) := by
  refine ⟨s.toList.flatMap escaped ++ ['"'], rfl, ?_⟩
  exact passQuoted_of_quoted (quoted_quote s [])

theorem isToken_quote (s : String) : IsToken (quote s) :=
  ⟨startsEntry_quote s, passHead_of_scalar (head_of_keyName (keyName_quote s))⟩

theorem writes_compactItems : ∀ {first : Bool} {ts : List Tree},
    (∀ t ∈ ts, t.Writes t.compact) → WritesItems first ts (compactItems first ts)
  | first, [], _ => .nil blank_nil
  | first, t :: ts, h => by
    obtain ⟨ht, hts⟩ := List.forall_mem_cons.mp h
    exact .cons blank_nil blank_nil ht (writes_compactItems hts)

theorem writes_compactEntries : ∀ {first : Bool} {ms : List (List Char × Tree)},
    (∀ m ∈ ms, IsKey m.1) → (∀ m ∈ ms, m.2.Writes m.2.compact) →
    WritesMembers first ms (compactEntries first ms)
  | first, [], _, _ => .nil blank_nil
  | first, (k, t) :: ms, hkeys, h => by
    obtain ⟨hk, hkeys⟩ := List.forall_mem_cons.mp hkeys
    obtain ⟨ht, hms⟩ := List.forall_mem_cons.mp h
    exact .cons blank_nil blank_nil hk blank_nil blank_nil ht (writes_compactEntries hkeys hms)

/-- A proper tree has a text. -/
theorem Tree.Proper.writes {t : Tree} (h : t.Proper) : t.Writes t.compact := by
  induction h with
  | scalar hw => exact .scalar hw
  | list _ ih => exact .list (writes_compactItems ih)
  | object hkeys _ ih => exact .object (writes_compactEntries hkeys ih)

theorem Tree.proper_quote (s : String) : (Tree.scalar (quote s)).Proper :=
  .scalar (isToken_quote s)

theorem Tree.proper_nil : (Tree.object []).Proper :=
  .object (List.forall_mem_nil _) (List.forall_mem_nil _)

/-- One member more under a written key. -/
theorem Tree.Proper.cons {k : String} {t : Tree} {ms : List (List Char × Tree)} (ht : t.Proper)
    (h : (Tree.object ms).Proper) : (Tree.object ((quote k, t) :: ms)).Proper := by
  cases h with
  | object hkeys hms =>
    exact .object (List.forall_mem_cons.mpr ⟨isKey_quote k, hkeys⟩)
      (List.forall_mem_cons.mpr ⟨ht, hms⟩)

/-- The members in another order. -/
theorem Tree.Proper.perm {ms ms' : List (List Char × Tree)} (h : (Tree.object ms).Proper)
    (hperm : ms'.Perm ms) : (Tree.object ms').Proper := by
  cases h with
  | object hkeys hms =>
    exact .object (fun m hm => hkeys m (hperm.mem_iff.mp hm)) fun m hm =>
      hms m (hperm.mem_iff.mp hm)

theorem Tree.Proper.text {t : Tree} (h : t.Proper) : t.Text (String.ofList t.compact) :=
  ⟨[], t.compact, [], blank_nil, h.writes, blank_nil, by
    rw [String.toList_ofList, List.append_nil]
    rfl⟩

/-- A proper tree that is written like a value of a shape has the text of the value. -/
theorem Tree.Proper.text_compact {α : Type} {s : Shape α} {a : α} {t : Tree} (h : t.Proper)
    (hcompact : t.compact = (s.encode a).compact) : t.Text (s.compact a) := by
  rw [Shape.compact, ← hcompact]
  exact h.text

end Json
end ModelStubs
