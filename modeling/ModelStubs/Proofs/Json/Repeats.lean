/-
# Names that stand twice

A record asks for its fields by name, and a tree may answer twice: two members of an object
under one name, whatever stands before, between and behind them, and however each spells the
name. `Json.Shape.ObjectIn` says which objects of a tree a shape reads as records, and with
which fields. It goes down through both notations of a record: under the name of a field in
an object, and at the place of a field in a list. The fields of a tagged object are the tag
and those of the record that it names.

What has a meaning has each of these fields at most once (`Json.Shape.once`). So a text in
which a field stands twice is not read (`Json.Shape.not_read_of_namedTwice`), be it deep
inside a tagged choice, where values are gathered before they are decoded.

Key definitions: `Json.NamedTwice`, `Json.Once`, `Json.Shape.ObjectIn`.
Key theorems: `Json.NamedTwice.not_once`, `Json.Shape.once`,
`Json.Shape.not_read_of_namedTwice`.
-/
import ModelStubs.Proofs.Json.Literals
import ModelStubs.Proofs.Json.TaggedBodies

namespace ModelStubs
namespace Json

variable {α : Type}

/-! ### One member and two -/

/-- Two of the members have the name, each in a spelling of its own. -/
def NamedTwice (name : String) (ms : List (List Char × Tree)) : Prop :=
  ∃ m m', [m, m'].Sublist ms ∧ StringToken m.1 name ∧ StringToken m'.1 name

/-- Each of the names has at most one member. -/
def Once (names : List String) (ms : List (List Char × Tree)) : Prop :=
  ∀ name ∈ names, (valuesOf name ms).length ≤ 1

theorem NamedTwice.not_once {name : String} {names : List String}
    {ms : List (List Char × Tree)} (h : NamedTwice name ms) (hname : name ∈ names) :
    ¬ Once names ms := by
  obtain ⟨m, m', hsub, hm, hm'⟩ := h
  intro honce
  have hvalues : (valuesOf name [m, m']).Sublist (valuesOf name ms) := hsub.filterMap _
  have hlength := Nat.le_trans hvalues.length_le (honce name hname)
  rw [valuesOf_cons_of_eq hm.keyName, valuesOf_cons_of_eq hm'.keyName] at hlength
  simp at hlength

theorem Slot.length_le {M : Meaning α} {ts : List Tree} {slot : Option α} (h : Slot M ts slot) :
    ts.length ≤ 1 := by
  cases slot with
  | none => rw [slot_none h]; exact Nat.zero_le 1
  | some a =>
    obtain ⟨t, rfl, -⟩ := slot_some h
    exact Nat.le_refl 1

/-- The slots of a row are filled at most once. -/
theorem Slots.once {ms : List (List Char × Tree)} : {ts : List Type} →
    {row : Row (Entry Meaning) ts} → {slots : Row Option ts} → Slots row ms slots →
    Once (Row.names row) ms
  | [], _, _, _ => List.forall_mem_nil _
  | _ :: _, (_, _), (_, _), ⟨hslot, hslots⟩ =>
    List.forall_mem_cons.mpr ⟨hslot.length_le, Slots.once hslots⟩

/-- The only tree under the name of a field that is read means what is in the slot. -/
theorem Slot.means_of_mem {M : Meaning α} {ts : List Tree} {slot : Option α} {t : Tree}
    (h : Slot M ts slot) (ht : t ∈ ts) : ∃ a, M t a := by
  cases slot with
  | none =>
    rw [slot_none h] at ht
    cases ht
  | some a =>
    obtain ⟨u, rfl, ha⟩ := slot_some h
    rw [List.mem_singleton] at ht
    exact ⟨a, ht ▸ ha⟩

/-! ### Objects that are read as records -/

/-- The tag is none of the other known labels. -/
def TagAllows (tag : String) (known : List String) (ms : List (List Char × Tree))
    (label : String) : Prop :=
  ∀ l ∈ valuesOf tag ms, ∀ label' ∈ known, l.IsText label' → label' = label

mutual
/-- In the tree the object with the members `ms` is to be read with the given fields. -/
def Shape.ObjectIn : {α : Type} → Shape α → Tree → List String → List (List Char × Tree) → Prop
  | _, .scalar _, _, _, _ => False
  | _, .optional s, t, names, ms => s.ObjectIn t names ms
  | _, .list s, t, names, ms => ∃ ts u, t = .list ts ∧ u ∈ ts ∧ s.ObjectIn u names ms
  | _, .record r, t, names, ms => r.ObjectIn t names ms
  | _, .tagged _ tag variants _, t, names, ms =>
    (t = .object ms ∧ names = [tag]) ∨
      (∃ members, t = .object members ∧
        variants.ObjectIn (TagAllows tag variants.labels members) t names ms) ∨
      ∃ l us, t = .list (l :: us) ∧ variants.ObjectIn l.IsText (.list us) names ms

/-- The object is the record itself or in one of its fields. -/
def RecordShape.ObjectIn : {α : Type} → RecordShape α → Tree → List String →
    List (List Char × Tree) → Prop
  | _, .mk _ fields _, t, names, ms =>
    (t = .object ms ∧ names = fields.names) ∨
      (∃ members, t = .object members ∧ fields.ObjectInMember members names ms) ∨
      ∃ ts, t = .list ts ∧ fields.ObjectInEntry ts names ms

/-- The object is in a member under the name of a field. -/
def Fields.ObjectInMember : {ts : List Type} → Fields ts → List (List Char × Tree) →
    List String → List (List Char × Tree) → Prop
  | _, .nil, _, _, _ => False
  | _, .cons field s rest, members, names, ms =>
    (∃ k u, (k, u) ∈ members ∧ StringToken k field.name ∧ s.ObjectIn u names ms) ∨
      rest.ObjectInMember members names ms

/-- The object is in an entry at the place of a field. -/
def Fields.ObjectInEntry : {ts : List Type} → Fields ts → List Tree → List String →
    List (List Char × Tree) → Prop
  | _, .nil, _, _, _ => False
  | _, .cons _ s rest, trees, names, ms =>
    ∃ u us, trees = u :: us ∧ (s.ObjectIn u names ms ∨ rest.ObjectInEntry us names ms)

/-- The object is in the record under a label that the tag allows. -/
def Variants.ObjectIn (allowed : String → Prop) : {ts : List Type} → Variants ts → Tree →
    List String → List (List Char × Tree) → Prop
  | _, .nil, _, _, _ => False
  | _, .cons label r rest, t, names, ms =>
    (allowed label ∧ r.ObjectIn t names ms) ∨ rest.ObjectIn allowed t names ms
end

/-! ### What has a meaning names nothing twice -/

theorem Variants.exists_allowed_of_objectIn {allowed : String → Prop} {t : Tree}
    {names : List String} {ms : List (List Char × Tree)} : {ts : List Type} →
    {v : Variants ts} → v.ObjectIn allowed t names ms → ∃ label ∈ v.labels, allowed label
  | _, .nil, h => by
    rw [Variants.ObjectIn] at h
    exact h.elim
  | _, .cons label r rest, h => by
    rw [Variants.ObjectIn] at h
    rw [Variants.labels]
    rcases h with ⟨hallowed, -⟩ | hrest
    · exact ⟨label, List.mem_cons_self, hallowed⟩
    · obtain ⟨other, hmem, hallowed⟩ := Variants.exists_allowed_of_objectIn hrest
      exact ⟨other, List.mem_cons_of_mem _ hmem, hallowed⟩

theorem Variants.mem_labels_of_means {room : Nat} {l : String} {t : Tree} : {ts : List Type} →
    {v : Variants ts} → {x : Choice ts} → v.Means room l t x → l ∈ v.labels
  | _, .nil, _, h => absurd h Variants.not_means_nil
  | _, .cons _ _ _, .inl _, h => (Variants.means_inl.mp h).1 ▸ List.mem_cons_self
  | _, .cons _ _ _, .inr _, h =>
    List.mem_cons_of_mem _ (Variants.mem_labels_of_means (Variants.means_inr.mp h).2)

section Meaning

variable {names : List String} {ms : List (List Char × Tree)}

/-- In a scalar there is no object. -/
theorem Shape.not_objectIn_scalar {w : List Char} : {α : Type} → {s : Shape α} →
    ¬ s.ObjectIn (.scalar w) names ms
  | _, .scalar _, h => by
    rw [Shape.ObjectIn] at h
    exact h
  | _, .optional s, h => by
    rw [Shape.ObjectIn] at h
    exact Shape.not_objectIn_scalar h
  | _, .list s, h => by
    rw [Shape.ObjectIn] at h
    obtain ⟨_, _, he, -⟩ := h
    cases he
  | _, .record (.mk _ _ _), h => by
    rw [Shape.ObjectIn, RecordShape.ObjectIn] at h
    obtain ⟨he, -⟩ | ⟨_, he, -⟩ | ⟨_, he, -⟩ := h
    all_goals cases he
  | _, .tagged _ _ _ _, h => by
    rw [Shape.ObjectIn] at h
    obtain ⟨he, -⟩ | ⟨_, he, -⟩ | ⟨_, _, he, -⟩ := h
    all_goals cases he

mutual
/-- **What has a meaning has no field twice**, in none of the records in it. -/
theorem Shape.once {room : Nat} {t : Tree} : {α : Type} → {s : Shape α} → {a : α} →
    s.Lawful → s.means room t a → s.ObjectIn t names ms → Once names ms
  | _, .scalar _, _, _, _, hin => by
    rw [Shape.ObjectIn] at hin
    exact hin.elim
  | _, .optional s, _, hlawful, h, hin => by
    rw [Shape.Lawful] at hlawful
    rw [Shape.means] at h
    rw [Shape.ObjectIn] at hin
    obtain ⟨⟨w, rfl, -⟩, -⟩ | ⟨-, b, hb, -⟩ := h
    · exact (Shape.not_objectIn_scalar hin).elim
    · exact Shape.once hlawful.2 hb hin
  | _, .list s, _, hlawful, h, hin => by
    rw [Shape.Lawful] at hlawful
    rw [Shape.means] at h
    rw [Shape.ObjectIn] at hin
    obtain ⟨-, ts, rfl, hall⟩ := h
    obtain ⟨_, u, he, hu, hin⟩ := hin
    cases he
    obtain ⟨before, after, rfl⟩ := List.append_of_mem hu
    obtain ⟨_, b, _, -, -, hb, -⟩ := forall₂_append_cons_iff.mp hall
    exact Shape.once hlawful hb hin
  | _, .record r, _, hlawful, h, hin => by
    rw [Shape.Lawful] at hlawful
    rw [Shape.means] at h
    rw [Shape.ObjectIn] at hin
    exact RecordShape.once hlawful h hin
  | _, .tagged name tag variants view, a, hlawful, h, hin => by
    have hshape := hlawful
    rw [Shape.Lawful] at hlawful
    rw [Shape.ObjectIn] at hin
    obtain ⟨rfl, rfl⟩ | ⟨members, rfl, hin⟩ | ⟨l, us, rfl, hin⟩ := hin
    · obtain ⟨_, ⟨l, hl, -⟩, -⟩ := (Shape.means_object_iff hshape).mp h
      refine List.forall_mem_singleton.mpr ?_
      rw [hl]
      exact Nat.le_refl 1
    · obtain ⟨label, ⟨l, hl, hlabel⟩, -, hmeans⟩ := (Shape.means_object_iff hshape).mp h
      -- the tag is there, so that it allows no other label
      have hallowed : ∀ label', TagAllows tag variants.labels members label' → label' = label := by
        intro label' hallows
        exact (hallows l (hl ▸ List.mem_singleton_self l) label
          (Variants.mem_labels_of_means hmeans) hlabel).symm
      exact Variants.once hallowed hlawful.1 hlawful.2 hmeans hin
    · obtain ⟨-, label, hlabel, -, hmeans⟩ := Shape.means_list_iff.mp h
      have hallowed : ∀ label', l.IsText label' → label' = label := fun _ h => h.unique hlabel
      exact Variants.once hallowed hlawful.1 hlawful.2 hmeans hin

theorem RecordShape.once {room : Nat} {t : Tree} : {α : Type} → {r : RecordShape α} → {a : α} →
    r.Lawful → r.means room t a → r.ObjectIn t names ms → Once names ms
  | _, .mk name fields view, _, hlawful, h, hin => by
    rw [RecordShape.Lawful] at hlawful
    rw [RecordShape.means] at h
    rw [RecordShape.ObjectIn] at hin
    obtain ⟨as, ⟨-, ⟨trees, rfl, has⟩ | ⟨members, slots, rfl, -, hslots, -⟩⟩, -⟩ := h
    · obtain ⟨he, -⟩ | ⟨_, he, -⟩ | ⟨_, he, hin⟩ := hin
      · cases he
      · cases he
      · cases he
        exact Fields.once_of_inOrder hlawful.2 has hin
    · obtain ⟨he, rfl⟩ | ⟨_, he, hin⟩ | ⟨_, he, -⟩ := hin
      · cases he
        exact names_means (room - 1) fields ▸ hslots.once
      · cases he
        exact Fields.once_of_slots hlawful.2 hslots hin
      · cases he

theorem Fields.once_of_slots {room : Nat} {members : List (List Char × Tree)} :
    {ts : List Type} → {f : Fields ts} → {slots : Row Option ts} → f.Lawful →
    Slots (f.means room) members slots → f.ObjectInMember members names ms → Once names ms
  | _, .nil, _, _, _, hin => by
    rw [Fields.ObjectInMember] at hin
    exact hin.elim
  | _, .cons field s rest, (slot, slots), hlawful, h, hin => by
    rw [Fields.Lawful] at hlawful
    rw [Fields.means] at h
    rw [Fields.ObjectInMember] at hin
    obtain ⟨hslot, hslots⟩ := h
    rcases hin with ⟨k, u, hmem, hk, hin⟩ | hin
    · obtain ⟨b, hb⟩ := hslot.means_of_mem (mem_valuesOf hmem hk.keyName)
      exact Shape.once hlawful.1 hb hin
    · exact Fields.once_of_slots hlawful.2 hslots hin

theorem Fields.once_of_inOrder {room : Nat} : {ts : List Type} → {f : Fields ts} →
    {trees : List Tree} → {as : Tuple ts} → f.Lawful → InOrder (f.means room) trees as →
    f.ObjectInEntry trees names ms → Once names ms
  | _, .nil, _, _, _, _, hin => by
    rw [Fields.ObjectInEntry] at hin
    exact hin.elim
  | _, .cons field s rest, trees, (a, as), hlawful, h, hin => by
    rw [Fields.Lawful] at hlawful
    rw [Fields.means] at h
    rw [Fields.ObjectInEntry] at hin
    obtain ⟨u, us, rfl, hin⟩ := hin
    obtain ⟨ha, has⟩ := h
    rcases hin with hin | hin
    · exact Shape.once hlawful.1 ha hin
    · exact Fields.once_of_inOrder hlawful.2 has hin

theorem Variants.once {room : Nat} {t : Tree} {tag label : String} {allowed : String → Prop}
    (hallowed : ∀ label', allowed label' → label' = label) : {ts : List Type} →
    {v : Variants ts} → {x : Choice ts} → v.labels.Nodup → v.Lawful tag → v.Means room label t x →
    v.ObjectIn allowed t names ms → Once names ms
  | _, .nil, _, _, _, h, _ => absurd h Variants.not_means_nil
  | _, .cons label' r rest, .inl b, hnodup, hlawful, h, hin => by
    rw [Variants.labels, List.nodup_cons] at hnodup
    rw [Variants.Lawful] at hlawful
    rw [Variants.ObjectIn] at hin
    obtain ⟨rfl, hb⟩ := Variants.means_inl.mp h
    rcases hin with ⟨-, hin⟩ | hin
    · exact RecordShape.once hlawful.1.2 hb hin
    · obtain ⟨other, hmem, hother⟩ := Variants.exists_allowed_of_objectIn hin
      exact absurd (hallowed other hother ▸ hmem) hnodup.1
  | _, .cons label' r rest, .inr x, hnodup, hlawful, h, hin => by
    rw [Variants.labels, List.nodup_cons] at hnodup
    rw [Variants.Lawful] at hlawful
    rw [Variants.ObjectIn] at hin
    obtain ⟨hne, hx⟩ := Variants.means_inr.mp h
    rcases hin with ⟨hother, -⟩ | hin
    · exact absurd (hallowed label' hother).symm hne
    · exact Variants.once hallowed hnodup.2 hlawful.2 hx hin
end

/-- A text with a field that stands twice is not read. -/
theorem Shape.not_read_of_namedTwice {s : Shape α} (hlawful : s.Lawful) {t : Tree}
    {source name : String} (ht : t.Text source) (hin : s.ObjectIn t names ms)
    (hname : name ∈ names) (htwice : NamedTwice name ms) : ∃ f, s.ofText source = .error f := by
  cases hread : s.ofText source with
  | error f => exact ⟨f, rfl⟩
  | ok a =>
    have hmeans := (Shape.ofText_iff hlawful ht).mp hread
    exact absurd (Shape.once hlawful hmeans hin) (htwice.not_once hname)

end Meaning

end Json
end ModelStubs
