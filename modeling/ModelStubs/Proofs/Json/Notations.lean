/-
# Two notations of a record

A record is written as an object of its fields, in any order, or as a list of them in their
order. A field whose value is its default may be left out: anywhere in an object, and in a
list together with all those behind it. The choice is made anew for each record, so a
record in one notation may hold others in the other one, with more or fewer fields left
out. `Json.RecordSpelled` says this about any list of fields, without regard to how they
are read. A tagged record is no exception: its label is written like a first field.

What is written so is taken by the reader: it means the value, whatever the notation
(`Json.takes_record`). For a tagged choice it has to be readable as well, because the body
is gathered before the label is known. So readability is carried along from the inside out
(`Json.takes_tagged`).

Key definitions: `Json.FieldSpelling`, `Json.InMembers`, `Json.InEntries`,
`Json.RecordSpelled`, `Json.Takes`, `Json.RowTakes`.
Key theorems: `Json.RowTakes.inOrder`, `Json.RowTakes.exists_slots`, `Json.takes_record`,
`Json.takes_tagged`.
-/
import ModelStubs.Proofs.Json.KnownMembers
import ModelStubs.Proofs.Json.Literals

namespace ModelStubs
namespace Json

variable {α : Type}

/-! ### Spellings -/

/-- A field of a record as it may be written: its name, the trees that spell its value, and
whether the value may be left out. -/
structure FieldSpelling where
  name : String
  spelled : Tree → Prop
  omissible : Prop

namespace FieldSpelling

/-- A field that is always written. -/
def required (name : String) (N : Meaning α) (a : α) : FieldSpelling := ⟨name, (N · a), False⟩

/-- A field that may be left out if its value is the default. -/
def default (name : String) (N : Meaning α) (a absent : α) : FieldSpelling :=
  ⟨name, (N · a), a = absent⟩

@[simp]
theorem required_name (name : String) (N : Meaning α) (a : α) : (required name N a).name = name :=
  rfl

@[simp]
theorem default_name (name : String) (N : Meaning α) (a absent : α) :
    (default name N a absent).name = name := rfl

end FieldSpelling

/-- Members for the fields in their order, without some that may be left out. -/
inductive InMembers : List FieldSpelling → List (List Char × Tree) → Prop
  | nil : InMembers [] []
  | written {f : FieldSpelling} {fs : List FieldSpelling} {k : List Char} {t : Tree}
      {ms : List (List Char × Tree)} : StringToken k f.name → f.spelled t → InMembers fs ms →
      InMembers (f :: fs) ((k, t) :: ms)
  | omitted {f : FieldSpelling} {fs : List FieldSpelling} {ms : List (List Char × Tree)} :
      f.omissible → InMembers fs ms → InMembers (f :: fs) ms

/-- Entries for the fields in their order, up to some that may all be left out. -/
inductive InEntries : List FieldSpelling → List Tree → Prop
  | written {f : FieldSpelling} {fs : List FieldSpelling} {t : Tree} {ts : List Tree} :
      f.spelled t → InEntries fs ts → InEntries (f :: fs) (t :: ts)
  | ended {fs : List FieldSpelling} : (∀ f ∈ fs, f.omissible) → InEntries fs []

/-- The tree spells a record with these fields, in one of the two notations. -/
inductive RecordSpelled (fs : List FieldSpelling) : Tree → Prop
  | object {ms ms' : List (List Char × Tree)} : InMembers fs ms → ms'.Perm ms →
      RecordSpelled fs (.object ms')
  | list {ts : List Tree} : InEntries fs ts → RecordSpelled fs (.list ts)

namespace Spelled

/-- A string in any spelling. -/
def text : Meaning String := fun t s => ∃ w, t = .scalar w ∧ StringToken w s

/-- A count in its decimal digits. -/
def count : Meaning UInt32 := fun t n => t = .scalar (Nat.toDigits 10 n.toNat)

/-- A truth value. -/
def flag : Meaning Bool := fun t b => t = .scalar (flagWord b)

/-- Null for nothing, or a value. -/
def optional (N : Meaning α) : Meaning (Option α)
  | t, none => t = .scalar ['n', 'u', 'l', 'l']
  | t, some a => N t a

/-- A list of values. -/
def list (N : Meaning α) : Meaning (List α) := fun t as =>
  ∃ ts, t = .list ts ∧ List.Forall₂ N ts as

/-- A record with the fields that its value has. -/
def record (fields : α → List FieldSpelling) : Meaning α := fun t a => RecordSpelled (fields a) t

end Spelled

/-- What is written for a string spells it. -/
theorem spelled_quote (s : String) : Spelled.text (.scalar (quote s)) s :=
  ⟨quote s, rfl, stringToken_quote s⟩

/-! ### Scalars, options and lists -/

/-- What spells a value is readable and means the value. -/
def Takes (room : Nat) (N M : Meaning α) : Prop := ∀ t a, N t a → M t a ∧ t.Readable room

section Values

variable {room : Nat} {N M : Meaning α}

theorem takes_text : Takes room Spelled.text (.scalar .text) := by
  rintro _ s ⟨w, rfl, hw⟩
  exact ⟨⟨w, _, rfl, hw.head, rfl⟩, readable_scalar_iff.mpr ⟨_, hw.head⟩⟩

theorem takes_count : Takes room Spelled.count (.scalar .count) := by
  rintro _ n rfl
  exact ⟨⟨_, _, rfl, head_count n, decode_toScalar .count n⟩,
    readable_scalar_iff.mpr ⟨_, head_count n⟩⟩

theorem takes_flag : Takes room Spelled.flag (.scalar .flag) := by
  rintro _ b rfl
  exact ⟨⟨_, _, rfl, head_flag b, rfl⟩, readable_scalar_iff.mpr ⟨_, head_flag b⟩⟩

/-- A tree that is a value and not null. -/
theorem takes_optional (h : Takes room N M) (hnull : ∀ t a, N t a → ¬ t.IsNull) :
    Takes room (Spelled.optional N) M.optional := by
  rintro t a ht
  cases a with
  | none =>
    cases ht
    exact ⟨.inl ⟨⟨_, rfl, rfl⟩, rfl⟩, readable_scalar_iff.mpr ⟨.null, rfl⟩⟩
  | some a =>
    obtain ⟨hm, hread⟩ := h t a ht
    exact ⟨.inr ⟨hnull t a ht, a, hm, rfl⟩, hread⟩

theorem takes_list (hroom : room ≠ 0) (h : Takes (room - 1) N M) :
    Takes room (Spelled.list N) (.list room M) := by
  rintro _ as ⟨ts, rfl, hall⟩
  have hmeans : List.Forall₂ M ts as := hall.imp fun t a ht => (h t a ht).1
  have hread : ReadableIf (room - 1) (fun _ => True) N := fun t a ht _ => (h t a ht).2
  exact ⟨⟨hroom, ts, rfl, hmeans⟩,
    readable_list_iff.mpr ⟨hroom, forall_readable hread hall fun _ _ => trivial⟩⟩

end Values

theorem not_isNull_of_head {w : List Char} {v : Scalar} (h : head w = .ok (.scalar v []))
    (hv : v ≠ .null) : ¬ (Tree.scalar w).IsNull := by
  rintro ⟨_, e, hnull⟩
  cases e
  cases h.symm.trans hnull
  exact hv rfl

theorem not_isNull_of_recordSpelled {fs : List FieldSpelling} {t : Tree}
    (h : RecordSpelled fs t) : ¬ t.IsNull := by
  rintro ⟨w, rfl, -⟩
  cases h

/-! ### Fields -/

/-- The spellings belong to the fields of the row, in the same order: under the same names,
with trees that mean the values, and left out only where the reader puts the value in. -/
def RowTakes (room : Nat) : {ts : List Type} → List FieldSpelling → Row (Entry Meaning) ts →
    Tuple ts → Prop
  | [], fs, _, _ => fs = []
  | _ :: _, [], _, _ => False
  | _ :: _, f :: fs, (e, es), (a, as) =>
    f.name = e.field.name ∧ (∀ t, f.spelled t → e.body t a ∧ t.Readable room) ∧
      (f.omissible → e.field.absent = some a) ∧ RowTakes room fs es as

/-- The members are fields. -/
theorem InMembers.exists_field {fs : List FieldSpelling} {ms : List (List Char × Tree)}
    (h : InMembers fs ms) :
    ∀ m ∈ ms, ∃ f ∈ fs, StringToken m.1 f.name ∧ f.spelled m.2 := by
  induction h with
  | nil => exact List.forall_mem_nil _
  | @written f fs k t ms hk ht _ ih =>
    refine List.forall_mem_cons.mpr ⟨⟨f, List.mem_cons_self, hk, ht⟩, fun m hm => ?_⟩
    obtain ⟨g, hg, hmg⟩ := ih m hm
    exact ⟨g, List.mem_cons_of_mem f hg, hmg⟩
  | @omitted f fs ms _ _ ih =>
    intro m hm
    obtain ⟨g, hg, hmg⟩ := ih m hm
    exact ⟨g, List.mem_cons_of_mem f hg, hmg⟩

theorem InMembers.keysRead {fs : List FieldSpelling} {ms : List (List Char × Tree)}
    (h : InMembers fs ms) : KeysRead ms := by
  intro m hm
  obtain ⟨f, -, hk, -⟩ := h.exists_field m hm
  rw [hk.keyName]
  rfl

/-- Under a name of no field there is no member. -/
theorem InMembers.keyName_ne {fs : List FieldSpelling} {ms : List (List Char × Tree)}
    (h : InMembers fs ms) {name : String} (hname : name ∉ fs.map FieldSpelling.name) :
    ∀ m ∈ ms, keyName m.1 ≠ some name := by
  intro m hm hkey
  obtain ⟨f, hf, hk, -⟩ := h.exists_field m hm
  rw [hk.keyName, Option.some.injEq] at hkey
  exact hname (hkey ▸ List.mem_map_of_mem hf)

theorem valuesOf_eq_nil {name : String} {ms : List (List Char × Tree)}
    (h : ∀ m ∈ ms, keyName m.1 ≠ some name) : valuesOf name ms = [] :=
  List.filterMap_eq_nil_iff.mpr fun m hm => if_neg (h m hm)

/-- A member under another name is none of the values. -/
theorem slots_cons {k : List Char} {name : String} (hk : keyName k = some name) {t : Tree}
    {ms : List (List Char × Tree)} : {ts : List Type} → {row : Row (Entry Meaning) ts} →
    {slots : Row Option ts} → name ∉ Row.names row → Slots row ms slots →
    Slots row ((k, t) :: ms) slots
  | [], _, _, _, _ => trivial
  | _ :: _, (e, es), (slot, slots), hname, ⟨hslot, hslots⟩ => by
    obtain ⟨hne, hrest⟩ := not_or.mp (mt List.mem_cons.mpr hname)
    refine ⟨?_, slots_cons hk hrest hslots⟩
    have hother : valuesOf e.field.name ((k, t) :: ms) = valuesOf e.field.name ms :=
      valuesOf_cons_of_ne (keyName_ne hk hne)
    rw [hother]
    exact hslot

/-- The order of the members makes no difference. -/
theorem slots_perm {ms ms' : List (List Char × Tree)} (h : ms'.Perm ms) : {ts : List Type} →
    {row : Row (Entry Meaning) ts} → {slots : Row Option ts} → Slots row ms slots →
    Slots row ms' slots
  | [], _, _, _ => trivial
  | _ :: _, (e, es), (slot, slots), ⟨hslot, hslots⟩ => by
    refine ⟨?_, slots_perm h hslots⟩
    have hvalues : (valuesOf e.field.name ms').Perm (valuesOf e.field.name ms) := h.filterMap _
    cases slot with
    | none =>
      rw [slot_none hslot] at hvalues
      rw [List.perm_nil.mp hvalues]
      rfl
    | some a =>
      obtain ⟨t, ht, ha⟩ := slot_some hslot
      rw [ht] at hvalues
      rw [List.perm_singleton.mp hvalues]
      exact ⟨a, ha, rfl⟩

namespace RowTakes

variable {room : Nat}

section Cons

variable {ts : List Type} {name : String} {N M : Meaning α} {a : α} {field : Field α}
  {fs : List FieldSpelling} {row : Row (Entry Meaning) ts} {as : Tuple ts}

theorem required (hname : name = field.name) (h : Takes room N M) (hrow : RowTakes room fs row as) :
    @RowTakes room (α :: ts) (.required name N a :: fs) (⟨field, M⟩, row) (a, as) :=
  ⟨hname, fun t => h t a, False.elim, hrow⟩

/-- What may be left out is what the reader puts in. -/
theorem default {absent : α} (hname : name = field.name) (habsent : field.absent = some absent)
    (h : Takes room N M) (hrow : RowTakes room fs row as) :
    @RowTakes room (α :: ts) (.default name N a absent :: fs) (⟨field, M⟩, row) (a, as) :=
  ⟨hname, fun t => h t a, fun e => habsent.trans (congrArg some (Eq.symm e)), hrow⟩

end Cons

theorem names : {ts : List Type} → {fs : List FieldSpelling} → {row : Row (Entry Meaning) ts} →
    {as : Tuple ts} → RowTakes room fs row as → fs.map FieldSpelling.name = Row.names row
  | [], _, _, _, rfl => rfl
  | _ :: _, _ :: _, (_, _), (_, _), ⟨hname, _, _, hrow⟩ => by
    rw [List.map_cons, hname, hrow.names, Row.names]

/-- What is written for the fields is readable. -/
theorem readable : {ts : List Type} → {fs : List FieldSpelling} →
    {row : Row (Entry Meaning) ts} → {as : Tuple ts} → RowTakes room fs row as →
    ∀ f ∈ fs, ∀ t, f.spelled t → t.Readable room
  | [], _, _, _, rfl => List.forall_mem_nil _
  | _ :: _, _ :: _, (_, _), (_, _), ⟨_, hvalue, _, hrow⟩ =>
    List.forall_mem_cons.mpr ⟨fun t ht => (hvalue t ht).2, hrow.readable⟩

/-- Entries for the fields give the values in their order. -/
theorem inOrder : {ts : List Type} → {fs : List FieldSpelling} →
    {row : Row (Entry Meaning) ts} → {as : Tuple ts} → RowTakes room fs row as →
    {trees : List Tree} → InEntries fs trees → InOrder row trees as
  | [], _, _, _, rfl, _, .ended _ => rfl
  | _ :: _, _ :: _, (_, _), (_, _), ⟨_, hvalue, _, hrow⟩, _, .written ht hts =>
    ⟨(hvalue _ ht).1, hrow.inOrder hts⟩
  | _ :: _, _ :: _, (_, _), (_, _), ⟨_, _, habsent, hrow⟩, _, .ended h =>
    have ⟨hfirst, hrest⟩ := List.forall_mem_cons.mp h
    ⟨habsent hfirst, hrow.inOrder (.ended hrest)⟩

/-- Members for the fields fill the slots so that all values are found. -/
theorem exists_slots : {ts : List Type} → {fs : List FieldSpelling} →
    {row : Row (Entry Meaning) ts} → {as : Tuple ts} → RowTakes room fs row as →
    (Row.names row).Nodup → {ms : List (List Char × Tree)} → InMembers fs ms →
    ∃ slots, Slots row ms slots ∧ complete row slots = .ok as
  | [], _, _, _, rfl, _, _, .nil => ⟨(), trivial, rfl⟩
  | _ :: _, f :: fs, (e, es), (a, as), ⟨hname, hvalue, habsent, hrow⟩, hnodup, ms, h => by
    obtain ⟨hfresh, hrest⟩ := List.nodup_cons.mp hnodup
    have hfresh' : e.field.name ∉ fs.map FieldSpelling.name := hrow.names ▸ hfresh
    cases h with
    | @written _ _ k t ms hk ht hms =>
      obtain ⟨slots, hslots, hcomplete⟩ := hrow.exists_slots hrest hms
      have hkey : keyName k = some e.field.name := hname ▸ hk.keyName
      refine ⟨(some a, slots), ⟨?_, slots_cons hkey hfresh hslots⟩, ?_⟩
      · rw [valuesOf_cons_of_eq hkey, valuesOf_eq_nil (hms.keyName_ne hfresh')]
        exact ⟨a, (hvalue t ht).1, rfl⟩
      · simp only [complete, hcomplete, Option.some_or]
    | omitted homitted hms =>
      obtain ⟨slots, hslots, hcomplete⟩ := hrow.exists_slots hrest hms
      refine ⟨(none, slots), ⟨?_, hslots⟩, ?_⟩
      · rw [valuesOf_eq_nil (hms.keyName_ne hfresh')]
        rfl
      · simp only [complete, hcomplete, Option.none_or, habsent homitted]

end RowTakes

/-! ### Records -/

theorem readable_of_recordSpelled {room : Nat} (hroom : room ≠ 0) {fs : List FieldSpelling}
    (h : ∀ f ∈ fs, ∀ t, f.spelled t → t.Readable (room - 1)) {t : Tree}
    (ht : RecordSpelled fs t) : t.Readable room := by
  cases ht with
  | object hms hperm =>
    refine readable_object_iff.mpr ⟨hroom, fun m hm => hms.keysRead m (hperm.mem_iff.mp hm),
      fun m hm => ?_⟩
    obtain ⟨f, hf, -, hm⟩ := hms.exists_field m (hperm.mem_iff.mp hm)
    exact h f hf m.2 hm
  | @list ts hts =>
    refine readable_list_iff.mpr ⟨hroom, ?_⟩
    induction hts with
    | written hf _ ih =>
      obtain ⟨hfirst, hrest⟩ := List.forall_mem_cons.mp h
      exact List.forall_mem_cons.mpr ⟨hfirst _ hf, ih hrest⟩
    | ended _ => exact List.forall_mem_nil _

/-- **A record is taken in both notations.** -/
theorem takes_record {room : Nat} (hroom : room ≠ 0) {ts : List Type}
    {row : Row (Entry Meaning) ts} (hnodup : (Row.names row).Nodup) {fs : List FieldSpelling}
    {as : Tuple ts} (h : RowTakes (room - 1) fs row as) {t : Tree} (ht : RecordSpelled fs t) :
    Meaning.record room row t as ∧ t.Readable room := by
  refine ⟨⟨hroom, ?_⟩, readable_of_recordSpelled hroom h.readable ht⟩
  cases ht with
  | @object ms ms' hms hperm =>
    obtain ⟨slots, hslots, hcomplete⟩ := h.exists_slots hnodup hms
    exact .inr ⟨ms', slots, rfl, fun m hm => hms.keysRead m (hperm.mem_iff.mp hm),
      slots_perm hperm hslots, hcomplete⟩
  | list hts => exact .inl ⟨_, rfl, h.inOrder hts⟩

theorem RecordShape.takes {room : Nat} (hroom : room ≠ 0) {name : String} {ts : List Type}
    {fields : Fields ts} {view : View α (Tuple ts)} (hnodup : fields.names.Nodup)
    {fs : List FieldSpelling} {a : α}
    (h : RowTakes (room - 1) fs (fields.means (room - 1)) (view.parts a)) {t : Tree}
    (ht : RecordSpelled fs t) :
    (RecordShape.mk name fields view).means room t a ∧ t.Readable room := by
  rw [← names_means (room - 1)] at hnodup
  obtain ⟨hmeans, hread⟩ := takes_record hroom hnodup h ht
  rw [RecordShape.means]
  exact ⟨⟨_, hmeans, view.whole_parts a⟩, hread⟩

/-! ### Tagged records -/

/-- The members beside the tag are the other fields. -/
theorem others_cons {tag : String} {k : List Char} (hk : keyName k = some tag) (t : Tree)
    {ms : List (List Char × Tree)} (h : ∀ m ∈ ms, keyName m.1 ≠ some tag) :
    Meaning.others tag ((k, t) :: ms) = ms := by
  have hkept : ∀ m ∈ ms, (!(keyName m.1).any (· == tag)) = true := by
    intro m hm
    cases hkey : keyName m.1 with
    | none => rfl
    | some name =>
      have hne : name ≠ tag := fun e => h m hm (e ▸ hkey)
      rw [Option.any_some, beq_false_of_ne hne]
      rfl
  unfold Meaning.others unskipped
  rw [List.filter_cons_of_neg (by simp [hk]), List.filter_eq_self.mpr hkept]

/-- **A tagged record is taken in both notations**, with the label like a first field. -/
theorem takes_tagged {room : Nat} (hroom : room ≠ 0) {tag label : String}
    {choose : String → Option (Meaning α)} {fs : List FieldSpelling}
    (htag : tag ∉ fs.map FieldSpelling.name) {a : α}
    (h : ∀ t, RecordSpelled fs t → (∃ M, choose label = some M ∧ M t a) ∧ t.Readable room)
    {t : Tree} (ht : RecordSpelled (.required tag Spelled.text label :: fs) t) :
    Meaning.tagged room tag choose t a ∧ t.Readable room := by
  have hlabel : ∀ l M, Spelled.text l label → choose label = some M →
      Meaning.label choose l M ∧ l.Readable (room - 1) := by
    rintro _ M ⟨w, rfl, hw⟩ hM
    exact ⟨label_iff.mpr ⟨label, hw.isText, hM⟩, readable_scalar_iff.mpr ⟨_, hw.head⟩⟩
  cases ht with
  | @object ms ms' hms hperm =>
    cases hms with
    | @written _ _ k l ms hk hl hms =>
      have hkey : keyName k = some tag := hk.keyName
      have hothers : (Meaning.others tag ms').Perm ms := by
        have hfilter : (Meaning.others tag ms').Perm (Meaning.others tag ((k, l) :: ms)) :=
          hperm.filter _
        rwa [others_cons hkey l (hms.keyName_ne htag)] at hfilter
      have hvalues : (valuesOf tag ms').Perm [l] := by
        have hall : (valuesOf tag ms').Perm (valuesOf tag ((k, l) :: ms)) := hperm.filterMap _
        rwa [valuesOf_cons_of_eq hkey, valuesOf_eq_nil (hms.keyName_ne htag)] at hall
      obtain ⟨⟨M, hM, hmeans⟩, hread⟩ := h _ (.object hms hothers)
      obtain ⟨hM, hl⟩ := hlabel l M hl hM
      obtain ⟨-, -, hall⟩ := readable_object_iff.mp hread
      have hkeys : KeysRead ms' := by
        intro m hm
        rcases List.mem_cons.mp (hperm.mem_iff.mp hm) with rfl | hm
        · rw [hkey]
          rfl
        · exact hms.keysRead m hm
      refine ⟨⟨hroom, .inr ⟨ms', l, M, rfl, hkeys, List.perm_singleton.mp hvalues, hM, hall,
        hmeans⟩⟩, readable_object_iff.mpr ⟨hroom, hkeys, fun m hm => ?_⟩⟩
      rcases List.mem_cons.mp (hperm.mem_iff.mp hm) with rfl | hm
      · exact hl
      · exact hall m (hothers.mem_iff.mpr hm)
    | omitted homitted _ => exact homitted.elim
  | list hts =>
    cases hts with
    | @written _ _ l ts hl hts =>
      obtain ⟨⟨M, hM, hmeans⟩, hread⟩ := h _ (.list hts)
      obtain ⟨hM, hl⟩ := hlabel l M hl hM
      obtain ⟨-, hall⟩ := readable_list_iff.mp hread
      exact ⟨⟨hroom, .inl ⟨l, ts, M, rfl, hM, hall, hmeans⟩⟩,
        readable_list_iff.mpr ⟨hroom, List.forall_mem_cons.mpr ⟨hl, hall⟩⟩⟩
    | ended h => exact (h _ List.mem_cons_self).elim

end Json
end ModelStubs
