/-
# Trees without unknown members

A record does not look at members that are no field, so that a tree may mean something to
it although it is not readable as a value: a number in such a member may be too large. A
tree has only known members if every record in it has none of these
(`Json.Shape.OnlyKnown`). If it means anything to the shape it is readable
(`Json.Shape.readable_of_means`), because all its parts have a meaning themselves.

Key definitions: `Json.EntriesKnown`, `Json.MembersKnown`, `Json.Shape.OnlyKnown`.
Key theorems: `Json.readable_of_slots`, `Json.Shape.readable_of_means`.
-/
import ModelStubs.Proofs.Json.SameMeaning

namespace ModelStubs
namespace Json

variable {α : Type}

/-! ### Known members -/

/-- What is asked of the values of fields, under their names and in their order. -/
abbrev Demands : Type := List (String × (Tree → Prop))

/-- The entries do what is asked of the fields in their order. -/
def EntriesKnown : Demands → List Tree → Prop
  | (_, P) :: Ps, t :: ts => P t ∧ EntriesKnown Ps ts
  | _, _ => True

/-- Every member is a field and does what is asked of it. -/
def MembersKnown (Ps : Demands) (ms : List (List Char × Tree)) : Prop :=
  ∀ m ∈ ms, ∀ k, keyName m.1 = some k → ∃ P, Ps.lookup k = some P ∧ P m.2

/-- A member under a written key is known if it does what is asked of the field. -/
theorem membersKnown_cons {Ps : Demands} {k : String} {t : Tree} {P : Tree → Prop}
    {ms : List (List Char × Tree)} (hlookup : Ps.lookup k = some P) (ht : P t)
    (hms : MembersKnown Ps ms) : MembersKnown Ps ((quote k, t) :: ms) := by
  refine List.forall_mem_cons.mpr ⟨fun k' hk' => ?_, hms⟩
  cases (keyName_quote k).symm.trans hk'
  exact ⟨P, hlookup, ht⟩

/-- A list whose entries do what is asked. -/
def listKnown (P : Tree → Prop) : Tree → Prop
  | .list ts => ∀ t ∈ ts, P t
  | _ => True

/-- A record in either spelling that has only known members. -/
def recordKnown (Ps : Demands) : Tree → Prop
  | .list ts => EntriesKnown Ps ts
  | .object ms => MembersKnown Ps ms
  | .scalar _ => True

/-- Beside the tag there are only known members of the record that it names. -/
def taggedKnown (tag : String) (choose : String → Option Demands) : Tree → Prop
  | .list (l :: ts) => ∀ name Ps, l.IsText name → choose name = some Ps → EntriesKnown Ps ts
  | .object ms => ∀ l name Ps, l ∈ valuesOf tag ms → l.IsText name → choose name = some Ps →
      MembersKnown ((tag, fun _ => True) :: Ps) ms
  | _ => True

mutual
/-- No object in the tree that is read as a record has a member that is no field. -/
def Shape.OnlyKnown : {α : Type} → Shape α → Tree → Prop
  | _, .scalar _ => fun _ => True
  | _, .optional s => s.OnlyKnown
  | _, .list s => listKnown s.OnlyKnown
  | _, .record r => recordKnown r.demands
  | _, .tagged _ tag variants _ => taggedKnown tag variants.demands

/-- What is asked of the fields of a record. -/
def RecordShape.demands : {α : Type} → RecordShape α → Demands
  | _, .mk _ fields _ => fields.demands

/-- What is asked of the fields. -/
def Fields.demands : {ts : List Type} → Fields ts → Demands
  | _, .nil => []
  | _, .cons field s rest => (field.name, s.OnlyKnown) :: rest.demands

/-- What is asked of the fields of the record that has the label. -/
def Variants.demands : {ts : List Type} → Variants ts → String → Option Demands
  | _, .nil, _ => none
  | _, .cons label r rest, l => if l = label then some r.demands else rest.demands l
end

/-! ### What means something is readable -/

/-- What means something and does what is asked of it is readable. -/
def ReadableIf (room : Nat) (P : Tree → Prop) (M : Meaning α) : Prop :=
  ∀ (t : Tree) (a : α), M t a → P t → t.Readable room

/-- The demands belong to the fields of the row, and make their values readable. -/
def RowReadable (room : Nat) : {ts : List Type} → Demands → Row (Entry Meaning) ts → Prop
  | [], Ps, _ => Ps = []
  | _ :: _, [], _ => False
  | _ :: _, (k, P) :: Ps, (e, es) =>
    k = e.field.name ∧ ReadableIf room P e.body ∧ RowReadable room Ps es

theorem readableIf_scalar (room : Nat) (k : ScalarShape α) (P : Tree → Prop) :
    ReadableIf room P (.scalar k) := by
  rintro _ a ⟨w, v, rfl, hw, -⟩ -
  exact readable_scalar_iff.mpr ⟨v, hw⟩

theorem ReadableIf.optional {room : Nat} {P : Tree → Prop} {M : Meaning α}
    (h : ReadableIf room P M) : ReadableIf room P M.optional := by
  rintro t a (⟨⟨w, rfl, hw⟩, -⟩ | ⟨-, b, hb, -⟩) hP
  · exact readable_scalar_iff.mpr ⟨.null, hw⟩
  · exact h t b hb hP

theorem ReadableIf.map {β : Type} {room : Nat} {P : Tree → Prop} {M : Meaning α}
    (h : ReadableIf room P M) (f : α → β) : ReadableIf room P (M.map f) := by
  rintro t b ⟨a, ha, -⟩ hP
  exact h t a ha hP

theorem forall_readable {room : Nat} {P : Tree → Prop} {M : Meaning α}
    (h : ReadableIf room P M) {ts : List Tree} {as : List α} (hall : List.Forall₂ M ts as)
    (hP : ∀ t ∈ ts, P t) : ∀ t ∈ ts, t.Readable room := by
  induction hall with
  | nil => exact List.forall_mem_nil _
  | cons ha _ ih =>
    obtain ⟨ht, hts⟩ := List.forall_mem_cons.mp hP
    exact List.forall_mem_cons.mpr ⟨h _ _ ha ht, ih hts⟩

theorem readableIf_list {room : Nat} {P : Tree → Prop} {M : Meaning α}
    (h : ReadableIf (room - 1) P M) : ReadableIf room (listKnown P) (.list room M) := by
  rintro _ as ⟨hroom, ts, rfl, hall⟩ hP
  exact readable_list_iff.mpr ⟨hroom, forall_readable h hall hP⟩

/-- The entries of a record are readable. There are no more of them than fields. -/
theorem readable_of_inOrder {room : Nat} : {ts : List Type} → {Ps : Demands} →
    {row : Row (Entry Meaning) ts} → {trees : List Tree} → {as : Tuple ts} →
    RowReadable room Ps row → InOrder row trees as → EntriesKnown Ps trees →
    ∀ t ∈ trees, t.Readable room
  | [], _, _, _, _, _, rfl, _ => List.forall_mem_nil _
  | _ :: _, _ :: _, (_, _), [], (_, _), _, _, _ => List.forall_mem_nil _
  | _ :: _, (_, _) :: _, (_, _), _ :: _, (_, _), ⟨_, hP, hrow⟩, ⟨ha, has⟩, ⟨ht, hts⟩ =>
    List.forall_mem_cons.mpr ⟨hP _ _ ha ht, readable_of_inOrder hrow has hts⟩

/-- A member under the name of a field is readable. -/
theorem readable_of_slots {room : Nat} {ms : List (List Char × Tree)} {m : List Char × Tree}
    {k : String} {P : Tree → Prop} (hm : m ∈ ms) (hk : keyName m.1 = some k) (hP : P m.2) :
    {ts : List Type} → {Ps : Demands} → {row : Row (Entry Meaning) ts} →
    {slots : Row Option ts} → RowReadable room Ps row → Slots row ms slots →
    Ps.lookup k = some P → m.2.Readable room
  | [], _, _, _, rfl, _, hlookup => by cases hlookup
  | _ :: _, (k', P') :: Ps, (e, es), (slot, slots), ⟨hname, hfirst, hrow⟩, ⟨hslot, hslots⟩,
      hlookup => by
    rw [List.lookup_cons] at hlookup
    by_cases hkk : k = k'
    · rw [beq_iff_eq.mpr hkk] at hlookup
      cases hlookup
      have hmem : m.2 ∈ valuesOf e.field.name ms :=
        mem_valuesOf hm (hk.trans (congrArg some (hkk.trans hname)))
      cases slot with
      | none =>
        rw [slot_none hslot] at hmem
        cases hmem
      | some a =>
        obtain ⟨t, ht, ha⟩ := slot_some hslot
        rw [ht, List.mem_singleton] at hmem
        exact hfirst m.2 a (hmem ▸ ha) hP
    · rw [beq_false_of_ne hkk] at hlookup
      exact readable_of_slots hm hk hP hrow hslots hlookup

theorem readableIf_record {room : Nat} {ts : List Type} {Ps : Demands}
    {row : Row (Entry Meaning) ts} (h : RowReadable (room - 1) Ps row) :
    ReadableIf room (recordKnown Ps) (.record room row) := by
  rintro _ as ⟨hroom, ⟨trees, rfl, has⟩ | ⟨ms, slots, rfl, hread, hslots, -⟩⟩ hknown
  · exact readable_list_iff.mpr ⟨hroom, readable_of_inOrder h has hknown⟩
  · refine readable_object_iff.mpr ⟨hroom, hread, fun m hm => ?_⟩
    obtain ⟨k, hk⟩ := Option.isSome_iff_exists.mp (hread m hm)
    obtain ⟨P, hlookup, hP⟩ := hknown m hm k hk
    exact readable_of_slots hm hk hP h hslots hlookup

/-- A tagged choice is always readable: the members beside the tag have to be. -/
theorem readableIf_tagged {room : Nat} {tag : String} {choose : String → Option (Meaning α)}
    (P : Tree → Prop) : ReadableIf room P (.tagged room tag choose) := by
  rintro _ a ⟨hroom, ⟨l, ts, M, rfl, hM, hall, -⟩ | ⟨ms, l, M, rfl, hread, hl, hM, hall, -⟩⟩ -
  · obtain ⟨name, ⟨w, rfl, hw⟩, -⟩ := label_iff.mp hM
    exact readable_list_iff.mpr
      ⟨hroom, List.forall_mem_cons.mpr ⟨readable_scalar_iff.mpr ⟨_, hw⟩, hall⟩⟩
  · obtain ⟨name, hname, -⟩ := label_iff.mp hM
    exact readable_object_iff.mpr ⟨hroom, hread, readable_of_others hl hname hall⟩

mutual
/-- **What means something is readable**, if all the members in it are known. -/
theorem Shape.readable_of_means : {α : Type} → (s : Shape α) → (room : Nat) →
    ReadableIf room s.OnlyKnown (s.means room)
  | _, .scalar k, room => by
    rw [Shape.means]
    exact readableIf_scalar room k _
  | _, .optional s, room => by
    rw [Shape.OnlyKnown, Shape.means]
    exact (s.readable_of_means room).optional
  | _, .list s, room => by
    rw [Shape.OnlyKnown, Shape.means]
    exact readableIf_list (s.readable_of_means (room - 1))
  | _, .record (.mk name fields view), room => by
    rw [Shape.OnlyKnown, RecordShape.demands, Shape.means, RecordShape.means]
    exact (readableIf_record (fields.readable_of_means (room - 1))).map view.whole
  | _, .tagged name tag variants view, room => by
    rw [Shape.means]
    exact (readableIf_tagged _).map view.whole

theorem Fields.readable_of_means : {ts : List Type} → (f : Fields ts) → (room : Nat) →
    RowReadable room f.demands (f.means room)
  | _, .nil, _ => by
    rw [Fields.demands]
    rfl
  | _, .cons field s rest, room => by
    rw [Fields.demands, Fields.means]
    exact ⟨rfl, s.readable_of_means room, rest.readable_of_means room⟩
end

/-- The members beside the tag are readable if the record means something and they are its
fields. -/
theorem RecordShape.readable_others {room : Nat} {tag : String} {ms : List (List Char × Tree)} :
    {α : Type} → {r : RecordShape α} → {a : α} → r.means room (.object ms) a →
    MembersKnown ((tag, fun _ => True) :: r.demands) ms →
    ∀ m ∈ Meaning.others tag ms, m.2.Readable (room - 1)
  | _, .mk name fields view, a, h, hknown, m, hm => by
    rw [RecordShape.means] at h
    rw [RecordShape.demands] at hknown
    obtain ⟨as, ⟨-, ⟨_, he, -⟩ | ⟨_, slots, he, hread, hslots, -⟩⟩, -⟩ := h
    · cases he
    · cases he
      obtain ⟨hmem, hother⟩ := List.mem_filter.mp hm
      obtain ⟨k, hk⟩ := Option.isSome_iff_exists.mp (hread m hmem)
      obtain ⟨P, hlookup, hP⟩ := hknown m hmem k hk
      have hne : (k == tag) = false := by
        rw [hk, Option.any_some] at hother
        exact (Bool.not_eq_true' _).mp hother
      rw [List.lookup_cons, hne] at hlookup
      exact readable_of_slots hmem hk hP (fields.readable_of_means (room - 1)) hslots hlookup

end Json
end ModelStubs
