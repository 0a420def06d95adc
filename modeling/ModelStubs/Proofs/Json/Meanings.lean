/-
# What trees mean to a shape

The meaning of a shape is a relation between trees and values, built like the shape. A
record has two spellings. By name, the members of an object may stand in any order: each
field has at most one member under its name, and other members are not looked at. In
order, the entries of a list belong to the fields one by one. A tagged choice is the
record that its label names, spelled by the other members, and these must all be readable
as values.

Reading goes through the members in their order with one slot for each field. What the
slots hold in the end depends only on the members under each name
(`Json.runs_row_iff`).

Key definitions: `Json.valuesOf`, `Json.Slot`, `Json.Slots`, `Json.InOrder`,
`Json.Meaning.record`, `Json.Meaning.tagged`, `Json.Shape.means`.
Key theorems: `Json.runs_slot_iff`, `Json.runs_row_iff`.
-/
import ModelStubs.Proofs.Json.TreeReading
import ModelStubs.Proofs.Json.RoundTrip

namespace ModelStubs
namespace Json

/-! ### Members under a name -/

/-- The trees of the members with the given name, in order. -/
def valuesOf (name : String) (ms : List (List Char × Tree)) : List Tree :=
  ms.filterMap fun m => if keyName m.1 = some name then some m.2 else none

theorem valuesOf_cons_of_eq {name : String} {m : List Char × Tree}
    {ms : List (List Char × Tree)} (h : keyName m.1 = some name) :
    valuesOf name (m :: ms) = m.2 :: valuesOf name ms := by
  simp only [valuesOf, List.filterMap_cons, if_pos h]

theorem valuesOf_cons_of_ne {name : String} {m : List Char × Tree}
    {ms : List (List Char × Tree)} (h : keyName m.1 ≠ some name) :
    valuesOf name (m :: ms) = valuesOf name ms := by
  simp only [valuesOf, List.filterMap_cons, if_neg h]

theorem keyName_ne {w : List Char} {k name : String} (hk : keyName w = some k) (h : k ≠ name) :
    keyName w ≠ some name := by
  rw [hk]
  exact fun e => h (Option.some.inj e)

variable {α β : Type}

/-- What the trees under one name give: nothing or one value. -/
def Slot (M : Meaning α) : List Tree → Option α → Prop
  | [], slot => slot = none
  | [t], slot => ∃ a, M t a ∧ slot = some a
  | _, _ => False

/-- A slot that is filled has one tree. -/
theorem slot_some {M : Meaning α} {ts : List Tree} {a : α} (h : Slot M ts (some a)) :
    ∃ t, ts = [t] ∧ M t a := by
  match ts, h with
  | [t], ⟨_, ha, e⟩ =>
    cases e
    exact ⟨t, rfl, ha⟩

/-- Fills the slot if the entry has the name. It must have been empty. -/
def slotStep (name : String) (M : Meaning α) : Step (Option α) := fun slot k t slot' =>
  if k = name then slot = none ∧ ∃ a, M t a ∧ slot' = some a else slot' = slot

theorem slotStep_self {name : String} {M : Meaning α} {slot slot' : Option α} {t : Tree} :
    slotStep name M slot name t slot' ↔ slot = none ∧ ∃ a, M t a ∧ slot' = some a := by
  rw [slotStep, if_pos rfl]

theorem slotStep_of_ne {name k : String} {M : Meaning α} {slot slot' : Option α} {t : Tree}
    (h : k ≠ name) : slotStep name M slot k t slot' ↔ slot' = slot := by
  rw [slotStep, if_neg h]

/-- A slot that is filled stays as it is, and no other member may have its name. -/
theorem runs_filled_iff {name : String} {M : Meaning α} {a : α} {ms : List (List Char × Tree)}
    {slot : Option α} : Runs (slotStep name M) (some a) ms slot ↔
      KeysRead ms ∧ valuesOf name ms = [] ∧ slot = some a := by
  induction ms with
  | nil => exact ⟨fun h => ⟨List.forall_mem_nil _, rfl, h⟩, fun h => h.2.2⟩
  | cons m ms ih =>
    cases hk : keyName m.1 with
    | none =>
      exact iff_of_false (fun h => not_keysRead_cons hk h.keysRead) fun h =>
        not_keysRead_cons hk h.1
    | some k =>
      rw [runs_cons_iff hk, keysRead_cons_iff hk]
      by_cases hname : k = name
      · subst hname
        rw [valuesOf_cons_of_eq hk]
        simp only [slotStep_self, reduceCtorEq, false_and, and_false, exists_false]
      · rw [valuesOf_cons_of_ne (keyName_ne hk hname), ← ih]
        simp only [slotStep_of_ne hname, exists_eq_left]

/-- An empty slot is filled from the members with its name. -/
theorem runs_slot_iff {name : String} {M : Meaning α} {ms : List (List Char × Tree)}
    {slot : Option α} : Runs (slotStep name M) none ms slot ↔
      KeysRead ms ∧ Slot M (valuesOf name ms) slot := by
  induction ms with
  | nil => exact ⟨fun h => ⟨List.forall_mem_nil _, h⟩, fun h => h.2⟩
  | cons m ms ih =>
    cases hk : keyName m.1 with
    | none =>
      exact iff_of_false (fun h => not_keysRead_cons hk h.keysRead) fun h =>
        not_keysRead_cons hk h.1
    | some k =>
      rw [runs_cons_iff hk, keysRead_cons_iff hk]
      by_cases hname : k = name
      · subst hname
        rw [valuesOf_cons_of_eq hk]
        simp only [slotStep_self]
        -- the member fills the slot, so that no other may have the name
        constructor
        · rintro ⟨y, ⟨-, a, ha, rfl⟩, hrest⟩
          obtain ⟨hread, hnone, hslot⟩ := runs_filled_iff.mp hrest
          rw [hnone]
          exact ⟨hread, a, ha, hslot⟩
        · rintro ⟨hread, hslot⟩
          cases hrest : valuesOf k ms with
          | nil =>
            rw [hrest] at hslot
            obtain ⟨a, ha, hslot⟩ := hslot
            exact ⟨some a, ⟨trivial, a, ha, rfl⟩, runs_filled_iff.mpr ⟨hread, hrest, hslot⟩⟩
          | cons t ts =>
            rw [hrest] at hslot
            exact hslot.elim
      · rw [valuesOf_cons_of_ne (keyName_ne hk hname), ← ih]
        simp only [slotStep_of_ne hname, exists_eq_left]

/-! ### Rows of fields -/

/-- One step for each field. -/
def rowStep : {ts : List Type} → Row (Entry Meaning) ts → Step (Row Option ts)
  | [], _ => fun _ _ _ _ => True
  | _ :: _, (e, es) => pairStep (slotStep e.field.name e.body) (rowStep es)

/-- What the members give for each field. -/
def Slots : {ts : List Type} → Row (Entry Meaning) ts → List (List Char × Tree) →
    Row Option ts → Prop
  | [], _, _, _ => True
  | _ :: _, (e, es), ms, (slot, slots) =>
    Slot e.body (valuesOf e.field.name ms) slot ∧ Slots es ms slots

/-- The entries of a list give the fields in their order; for those behind the last entry
the defaults stand. -/
def InOrder : {ts : List Type} → Row (Entry Meaning) ts → List Tree → Tuple ts → Prop
  | [], _, trees, _ => trees = []
  | _ :: _, (e, es), [], (a, as) => e.field.absent = some a ∧ InOrder es [] as
  | _ :: _, (e, es), t :: trees, (a, as) => e.body t a ∧ InOrder es trees as

/-- The order of the members makes no difference to the slots. -/
theorem runs_row_iff : {ts : List Type} → {row : Row (Entry Meaning) ts} →
    {ms : List (List Char × Tree)} → {slots : Row Option ts} →
    (Runs (rowStep row) Row.none ms slots ↔ KeysRead ms ∧ Slots row ms slots)
  | [], _, ms, slots => by
    refine ⟨fun h => ⟨h.keysRead, trivial⟩, fun h => ?_⟩
    replace h := h.1
    induction ms with
    | nil => rfl
    | cons m ms ih =>
      obtain ⟨hm, hread⟩ := List.forall_mem_cons.mp h
      obtain ⟨k, hk⟩ := Option.isSome_iff_exists.mp hm
      exact (runs_cons_iff hk).mpr ⟨(), trivial, ih hread⟩
  | _ :: _, (e, es), ms, (slot, slots) => by
    refine runs_pair_iff.trans ?_
    refine (and_congr runs_slot_iff runs_row_iff).trans ?_
    constructor
    · rintro ⟨⟨hread, hslot⟩, -, hslots⟩
      exact ⟨hread, hslot, hslots⟩
    · rintro ⟨hread, hslot, hslots⟩
      exact ⟨⟨hread, hslot⟩, hread, hslots⟩

/-- A name that belongs to no field leaves the slots as they are. -/
theorem rowStep_of_not_mem : {ts : List Type} → {row : Row (Entry Meaning) ts} →
    {x y : Row Option ts} → {k : String} → {t : Tree} → k ∉ Row.names row →
    (rowStep row x k t y ↔ y = x)
  | [], _, _, _, _, _, _ => ⟨fun _ => rfl, fun _ => trivial⟩
  | _ :: _, (e, es), (slot, slots), (slot', slots'), k, t, h => by
    obtain ⟨hk, hrest⟩ := not_or.mp (mt List.mem_cons.mpr h)
    refine (and_congr (slotStep_of_ne hk) (rowStep_of_not_mem hrest)).trans ?_
    constructor
    · rintro ⟨rfl, h⟩
      cases h
      rfl
    · intro h
      cases h
      exact ⟨rfl, rfl⟩

/-- Under the name of the first field its slot is filled. -/
theorem rowStep_self {ts : List Type} {e : Entry Meaning α} {es : Row (Entry Meaning) ts}
    (h : e.field.name ∉ Row.names es) {slot slot' : Option α} {x y : Row Option ts} {t : Tree} :
    @rowStep (α :: ts) (e, es) (slot, x) e.field.name t (slot', y) ↔
      (slot = none ∧ ∃ a, e.body t a ∧ slot' = some a) ∧ y = x :=
  and_congr slotStep_self (rowStep_of_not_mem h)

/-- Under another name the first slot stays as it is. -/
theorem rowStep_of_ne {ts : List Type} {e : Entry Meaning α} {es : Row (Entry Meaning) ts}
    {k : String} (h : k ≠ e.field.name) {slot slot' : Option α} {x y : Row Option ts} {t : Tree} :
    @rowStep (α :: ts) (e, es) (slot, x) k t (slot', y) ↔ slot' = slot ∧ rowStep es x k t y :=
  and_congr_left' (slotStep_of_ne h)

/-! ### Meanings -/

/-- The tree is null. -/
def Tree.IsNull (t : Tree) : Prop := ∃ w, t = .scalar w ∧ head w = .ok (.scalar .null [])

namespace Meaning

/-- A scalar of the kind. -/
def scalar (k : ScalarShape α) : Meaning α := fun t a =>
  ∃ w v, t = .scalar w ∧ head w = .ok (.scalar v []) ∧ k.ofScalar v = .ok a

/-- Null or a value. -/
def optional (M : Meaning α) : Meaning (Option α) := fun t a =>
  (t.IsNull ∧ a = none) ∨ (¬ t.IsNull ∧ ∃ b, M t b ∧ a = some b)

/-- A list of values. -/
def list (room : Nat) (M : Meaning α) : Meaning (List α) := fun t as =>
  room ≠ 0 ∧ ∃ ts, t = .list ts ∧ List.Forall₂ M ts as

/-- A function of what the tree stands for. -/
def map (f : α → β) (M : Meaning α) : Meaning β := fun t b => ∃ a, M t a ∧ f a = b

/-- The fields of a record, by their names or in their order. -/
def record (room : Nat) {ts : List Type} (row : Row (Entry Meaning) ts) : Meaning (Tuple ts) :=
  fun t as => room ≠ 0 ∧
    ((∃ trees, t = .list trees ∧ InOrder row trees as) ∨
      ∃ ms slots, t = .object ms ∧ KeysRead ms ∧ Slots row ms slots ∧
        complete row slots = .ok as)

/-- What a label names. -/
def label {δ : Type} (choose : String → Option δ) (t : Tree) (d : δ) : Prop :=
  ∃ l, scalar .label t l ∧ choose l = some d

/-- The members that are not the tag. -/
def others (tag : String) (ms : List (List Char × Tree)) : List (List Char × Tree) :=
  unskipped (· == tag) ms

/-- The record that the label under the tag names, spelled by the other members or
entries, all of which are readable. -/
def tagged (room : Nat) (tag : String) (choose : String → Option (Meaning α)) : Meaning α :=
  fun t a => room ≠ 0 ∧
    ((∃ l trees M, t = .list (l :: trees) ∧ label choose l M ∧
        (∀ t ∈ trees, t.Readable (room - 1)) ∧ M (.list trees) a) ∨
      ∃ ms l M, t = .object ms ∧ KeysRead ms ∧ valuesOf tag ms = [l] ∧ label choose l M ∧
        (∀ m ∈ others tag ms, m.2.Readable (room - 1)) ∧ M (.object (others tag ms)) a)

end Meaning

mutual
/-- What trees mean to a shape with this much room for open brackets. -/
def Shape.means (room : Nat) : {α : Type} → Shape α → Meaning α
  | _, .scalar k => .scalar k
  | _, .optional s => .optional (s.means room)
  | _, .list s => .list room (s.means (room - 1))
  | _, .record r => r.means room
  | _, .tagged _ tag variants view =>
    (Meaning.tagged room tag (variants.means room)).map view.whole

/-- What trees mean to a record. -/
def RecordShape.means (room : Nat) : {α : Type} → RecordShape α → Meaning α
  | _, .mk _ fields view => (Meaning.record room (fields.means (room - 1))).map view.whole

/-- What trees mean to the fields. -/
def Fields.means (room : Nat) : {ts : List Type} → Fields ts → Row (Entry Meaning) ts
  | _, .nil => ()
  | _, .cons field s rest => (⟨field, s.means room⟩, rest.means room)

/-- What trees mean to the record that has the label. -/
def Variants.means (room : Nat) : {ts : List Type} → Variants ts → String →
    Option (Meaning (Choice ts))
  | _, .nil, _ => none
  | _, .cons label r rest, l =>
    if l = label then some ((r.means room).map Sum.inl)
    else
      match rest.means room l with
      | none => none
      | some M => some (M.map Sum.inr)
end

/-- What an entry of a list means stands at the place of the entry. -/
theorem forall₂_append_cons_iff {M : Meaning α} {before after : List Tree} {t : Tree}
    {as : List α} : List.Forall₂ M (before ++ t :: after) as ↔
      ∃ xs a ys, as = xs ++ a :: ys ∧ List.Forall₂ M before xs ∧ M t a ∧
        List.Forall₂ M after ys := by
  induction before generalizing as with
  | nil =>
    rw [List.nil_append, List.forall₂_cons_left_iff]
    simp only [List.forall₂_nil_left_iff]
    constructor
    · rintro ⟨a, ys, ha, hys, rfl⟩
      exact ⟨[], a, ys, rfl, rfl, ha, hys⟩
    · rintro ⟨_, a, ys, rfl, rfl, ha, hys⟩
      exact ⟨a, ys, ha, hys, rfl⟩
  | cons u before ih =>
    rw [List.cons_append, List.forall₂_cons_left_iff]
    simp only [ih]
    constructor
    · rintro ⟨x, _, hx, ⟨xs, a, ys, rfl, hxs, ha, hys⟩, rfl⟩
      exact ⟨x :: xs, a, ys, rfl, .cons hx hxs, ha, hys⟩
    · rintro ⟨_, a, ys, rfl, hall, ha, hys⟩
      obtain ⟨x, xs, hx, hxs, rfl⟩ := List.forall₂_cons_left_iff.mp hall
      exact ⟨x, _, hx, ⟨xs, a, ys, rfl, hxs, ha, hys⟩, rfl⟩

theorem names_means (room : Nat) : {ts : List Type} → (f : Fields ts) →
    Row.names (f.means room) = f.names
  | _, .nil => rfl
  | _, .cons field s rest => by
    rw [Fields.means, Fields.names, Row.names, names_means room rest]

end Json
end ModelStubs
