/-
# The record inside a tagged choice

A tagged choice is read in two steps, first as a value and then as the record that the tag
names. For an object this comes to the same as reading the record right away, where the
tag is one more member that is no field (`Json.Shape.means_object_iff`). The only
difference is that the members beside the tag have to be readable, and those that are
fields always are: for an object with known members only, the two readings agree
(`Json.Shape.means_known_iff`).

Key definitions: `Json.IsObjectText`, `Json.Variants.Means`, `Json.HasTag`.
Key theorems: `Json.Variants.means_others`, `Json.Shape.means_object_iff`,
`Json.Shape.means_list_iff`, `Json.Shape.means_known_iff`, `Json.Shape.exists_object_of_ofText`.
-/
import ModelStubs.Proofs.Json.KnownMembers

namespace ModelStubs
namespace Json

variable {α : Type}

/-! ### Objects -/

/-- Behind spaces the text starts with a curly bracket. -/
def IsObjectText (source : String) : Prop := ∃ cs, skipSpace source.toList = '\x7b' :: cs

/-- The text of a tree starts with a curly bracket if the tree is an object. -/
theorem Tree.Text.isObjectText_iff {t : Tree} {source : String} (h : t.Text source) :
    IsObjectText source ↔ ∃ ms, t = .object ms := by
  obtain ⟨a, w, b, ha, hw, -, hsource⟩ := h
  unfold IsObjectText
  rw [hsource, skipSpace_blank ha, skipSpace_of_startsEntry (hw.startsEntry.append b)]
  constructor
  · rintro ⟨cs, hstart⟩
    cases hw with
    | list _ => cases hstart
    | object _ => exact ⟨_, rfl⟩
    | scalar htoken =>
      obtain ⟨⟨c, v, rfl, -⟩, hpass⟩ := htoken
      cases hstart
      cases hpass
  · rintro ⟨ms, rfl⟩
    cases hw with
    | object _ => exact ⟨_, rfl⟩

/-- Every object text that is read has a tree, and it is an object. -/
theorem Shape.exists_object_of_ofText {s : Shape α} {source : String} {a : α}
    (h : s.ofText source = .ok a) (hobject : IsObjectText source) :
    ∃ ms, (Tree.object ms).Text source := by
  obtain ⟨t, ht⟩ := Shape.exists_text_of_ofText h
  obtain ⟨ms, rfl⟩ := ht.isObjectText_iff.mp hobject
  exact ⟨ms, ht⟩

/-! ### The record that a label names -/

/-- To the record under the label, the tree means what is in the choice. -/
def Variants.Means {ts : List Type} (v : Variants ts) (room : Nat) (label : String) (t : Tree)
    (x : Choice ts) : Prop :=
  ∃ M, v.means room label = some M ∧ M t x

section Variants

variable {β : Type} {ts : List Type} {r : RecordShape β} {rest : Variants ts} {room : Nat}
  {label l : String} {t : Tree}

theorem Variants.not_means_nil {x : Choice []} : ¬ Variants.nil.Means room l t x := by
  rintro ⟨M, hM, -⟩
  rw [Variants.means] at hM
  cases hM

/-- The first record means what it means under its own label. -/
theorem Variants.means_inl {b : β} :
    (Variants.cons label r rest).Means room l t (.inl b) ↔ l = label ∧ r.means room t b := by
  unfold Variants.Means
  rw [Variants.means]
  constructor
  · rintro ⟨M, hM, hb⟩
    split at hM
    · next hl =>
      cases hM
      obtain ⟨b', hb', e⟩ := hb
      cases e
      exact ⟨hl, hb'⟩
    · split at hM
      · cases hM
      · cases hM
        obtain ⟨x, -, e⟩ := hb
        cases e
  · rintro ⟨hl, hb⟩
    exact ⟨_, if_pos hl, b, hb, rfl⟩

/-- The other records mean what they mean without the first under any other label. -/
theorem Variants.means_inr {x : Choice ts} :
    (Variants.cons label r rest).Means room l t (.inr x) ↔
      l ≠ label ∧ rest.Means room l t x := by
  unfold Variants.Means
  rw [Variants.means]
  constructor
  · rintro ⟨M, hM, hx⟩
    split at hM
    · cases hM
      obtain ⟨b, -, e⟩ := hx
      cases e
    · next hl =>
      split at hM
      · cases hM
      · next M' hM' =>
        cases hM
        obtain ⟨x', hx', e⟩ := hx
        cases e
        exact ⟨hl, M', hM', hx'⟩
  · rintro ⟨hl, M, hM, hx⟩
    rw [if_neg hl, hM]
    exact ⟨_, rfl, x, hx, rfl⟩

/-- What the other records mean under one label, they mean behind a first record that has
another. -/
theorem Variants.means_inr_iff {x : Choice ts} {other : String} {P : Prop}
    (hne : other ≠ label) (h : rest.Means room l t x ↔ l = other ∧ P) :
    (Variants.cons label r rest).Means room l t (.inr x) ↔ l = other ∧ P := by
  rw [Variants.means_inr, h]
  exact and_iff_right_of_imp fun hl => hl.1 ▸ hne

end Variants

/-- To none of the records does the tag make a difference. -/
theorem Variants.means_others {room : Nat} {tag l : String} {ms : List (List Char × Tree)}
    (hread : KeysRead ms) : {ts : List Type} → {v : Variants ts} → {x : Choice ts} →
    v.Lawful tag →
    (v.Means room l (.object (Meaning.others tag ms)) x ↔ v.Means room l (.object ms) x)
  | _, .nil, _, _ => iff_of_false Variants.not_means_nil Variants.not_means_nil
  | _, .cons label r rest, .inl b, h => by
    rw [Variants.Lawful] at h
    rw [Variants.means_inl, Variants.means_inl, RecordShape.means_others h.1.1 hread]
  | _, .cons label r rest, .inr x, h => by
    rw [Variants.Lawful] at h
    rw [Variants.means_inr, Variants.means_inr, Variants.means_others hread h.2]

/-- Behind the choice there is a record whose demands are those under the label. -/
theorem Variants.exists_record_of_means {room : Nat} {l : String} {t : Tree} :
    {ts : List Type} → {v : Variants ts} → {x : Choice ts} → v.Means room l t x →
    ∃ (β : Type) (r : RecordShape β) (b : β), v.demands l = some r.demands ∧ r.means room t b
  | _, .nil, _, h => absurd h Variants.not_means_nil
  | _, .cons label r rest, .inl b, h => by
    obtain ⟨hl, hb⟩ := Variants.means_inl.mp h
    exact ⟨_, r, b, by rw [Variants.demands, if_pos hl], hb⟩
  | _, .cons label r rest, .inr x, h => by
    obtain ⟨hl, hx⟩ := Variants.means_inr.mp h
    obtain ⟨β, r', b, hdemands, hb⟩ := Variants.exists_record_of_means hx
    exact ⟨β, r', b, by rw [Variants.demands, if_neg hl, hdemands], hb⟩

theorem RecordShape.keysRead_of_means {room : Nat} {ms : List (List Char × Tree)} :
    {r : RecordShape α} → {a : α} → r.means room (.object ms) a → room ≠ 0 ∧ KeysRead ms
  | .mk name fields view, a, h => by
    rw [RecordShape.means] at h
    obtain ⟨as, ⟨hroom, ⟨_, he, -⟩ | ⟨_, slots, he, hread, -⟩⟩, -⟩ := h
    · cases he
    · cases he
      exact ⟨hroom, hread⟩

/-! ### Tagged objects -/

/-- The tag is there once, and it is this label. -/
def HasTag (tag label : String) (ms : List (List Char × Tree)) : Prop :=
  ∃ l : Tree, valuesOf tag ms = [l] ∧ l.IsText label

section Tagged

variable {name tag : String} {ts : List Type} {variants : Variants ts} {view : View α (Choice ts)}
  {room : Nat} {ms : List (List Char × Tree)} {a : α}

/-- **A tagged object means what its record means**, and the members beside the tag are
readable. -/
theorem Shape.means_object_iff (hlawful : (Shape.tagged name tag variants view).Lawful) :
    (Shape.tagged name tag variants view).means room (.object ms) a ↔
      ∃ label, HasTag tag label ms ∧ (∀ m ∈ Meaning.others tag ms, m.2.Readable (room - 1)) ∧
        variants.Means room label (.object ms) (view.parts a) := by
  rw [Shape.Lawful] at hlawful
  rw [Shape.means]
  constructor
  · rintro ⟨x, ⟨-, ⟨_, _, _, he, -⟩ | ⟨_, l, M, he, hread, hl, hM, hall, hx⟩⟩, rfl⟩
    · cases he
    · cases he
      obtain ⟨label, hlabel, hmeans⟩ := label_iff.mp hM
      rw [view.parts_whole]
      exact ⟨label, ⟨l, hl, hlabel⟩, hall,
        (Variants.means_others hread hlawful.2).mp ⟨M, hmeans, hx⟩⟩
  · rintro ⟨label, ⟨l, hl, hlabel⟩, hall, hmeans⟩
    obtain ⟨_, r, b, -, hb⟩ := Variants.exists_record_of_means hmeans
    obtain ⟨hroom, hread⟩ := r.keysRead_of_means hb
    obtain ⟨M, hM, hx⟩ := (Variants.means_others hread hlawful.2).mpr hmeans
    exact ⟨view.parts a, ⟨hroom, .inr ⟨ms, l, M, rfl, hread, hl,
      label_iff.mpr ⟨label, hlabel, hM⟩, hall, hx⟩⟩, view.whole_parts a⟩

/-- A tagged list means what its record means, spelled by the entries behind the label, and
these are readable. -/
theorem Shape.means_list_iff {l : Tree} {trees : List Tree} :
    (Shape.tagged name tag variants view).means room (.list (l :: trees)) a ↔
      room ≠ 0 ∧ ∃ label, l.IsText label ∧ (∀ t ∈ trees, t.Readable (room - 1)) ∧
        variants.Means room label (.list trees) (view.parts a) := by
  rw [Shape.means]
  constructor
  · rintro ⟨x, ⟨hroom, ⟨_, _, M, he, hM, hall, hx⟩ | ⟨_, _, _, he, -⟩⟩, rfl⟩
    · cases he
      obtain ⟨label, hlabel, hmeans⟩ := label_iff.mp hM
      rw [view.parts_whole]
      exact ⟨hroom, label, hlabel, hall, M, hmeans, hx⟩
    · cases he
  · rintro ⟨hroom, label, hlabel, hall, M, hM, hx⟩
    exact ⟨view.parts a, ⟨hroom, .inl ⟨l, trees, M, rfl, label_iff.mpr ⟨label, hlabel, hM⟩, hall,
      hx⟩⟩, view.whole_parts a⟩

/-- **The two readings agree** on an object that has the tag once and only known members
besides. -/
theorem Shape.means_known_iff (hlawful : (Shape.tagged name tag variants view).Lawful)
    {label : String} (htag : HasTag tag label ms)
    (hknown : (Shape.tagged name tag variants view).OnlyKnown (.object ms)) :
    (Shape.tagged name tag variants view).means room (.object ms) a ↔
      variants.Means room label (.object ms) (view.parts a) := by
  rw [Shape.means_object_iff hlawful]
  constructor
  · rintro ⟨label', htag', -, hmeans⟩
    obtain ⟨l, hl, hlabel⟩ := htag
    obtain ⟨l', hl', hlabel'⟩ := htag'
    cases hl.symm.trans hl'
    rwa [hlabel.unique hlabel']
  · intro hmeans
    -- what is left is that the members beside the tag are readable, and they are fields
    refine ⟨label, htag, ?_, hmeans⟩
    obtain ⟨l, hl, hlabel⟩ := htag
    obtain ⟨_, r, b, hdemands, hb⟩ := Variants.exists_record_of_means hmeans
    rw [Shape.OnlyKnown] at hknown
    exact RecordShape.readable_others hb
      (hknown l label r.demands (by rw [hl]; exact List.mem_cons_self) hlabel hdemands)

end Tagged

end Json
end ModelStubs
