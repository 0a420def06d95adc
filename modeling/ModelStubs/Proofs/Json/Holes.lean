/-
# Trees with a hole

A hole is a place in a tree: the brackets around it from the outside in, each with what
stands beside the hole. A shape may focus on a hole (`Json.Focus`): what the whole tree means
has the meaning of the tree in the hole as one of its parts, and if the tree in the hole is
exchanged for another that has a meaning then the whole has a meaning again. So whether the
whole has a meaning is decided in the hole, as long as nothing beside it changes.

A record focuses on its fields, in both of its notations: on the member under the name of the
field, whatever stands around it, and on the entry at the place of the field
(`Json.Focus.field`). A list focuses on its entries, and a tagged choice on the fields of the
record that the tag names, if the tag stands beside the hole (`Json.Focus.tagged`). Focuses
are put together from the outside in (`Json.Focus.trans`).

Key definitions: `Json.Frame`, `Json.fill`, `Json.Focus`, `Json.FieldFocus`,
`Json.FieldFrame`, `Json.TaggedFrame`.
Key theorems: `Json.Focus.trans`, `Json.Focus.field`, `Json.Focus.tagged`.
-/
import ModelStubs.Proofs.Json.Repeats

namespace ModelStubs
namespace Json

variable {α β γ : Type}

/-! ### Holes -/

/-- One bracket with a hole in it: the entries or members before and behind the hole, and in
an object the key. -/
inductive Frame
  | entry (before after : List Tree)
  | member (before : List (List Char × Tree)) (key : List Char)
      (after : List (List Char × Tree))

/-- The bracket with a tree in the hole. -/
def Frame.fill : Frame → Tree → Tree
  | entry before after, t => .list (before ++ t :: after)
  | member before key after, t => .object (before ++ (key, t) :: after)

/-- The tree with another in the hole that is inside these brackets. -/
def fill (h : List Frame) (t : Tree) : Tree := h.foldr Frame.fill t

@[simp]
theorem fill_nil (t : Tree) : fill [] t = t := rfl

@[simp]
theorem fill_cons (f : Frame) (h : List Frame) (t : Tree) : fill (f :: h) t = f.fill (fill h t) :=
  rfl

theorem fill_append (h h' : List Frame) (t : Tree) : fill (h ++ h') t = fill h (fill h' t) :=
  List.foldr_append

/-- Wherever the one is readable the other is. -/
def ReadableLike (t u : Tree) : Prop := ∀ room, t.Readable room → u.Readable room

section Frames

variable {f : Frame} {t u : Tree}

theorem Frame.not_isNull : ¬ (f.fill t).IsNull := by
  cases f <;> exact fun ⟨_, he, _⟩ => by cases he

theorem keysRead_exchange {before after : List (List Char × Tree)} {key : List Char}
    (h : KeysRead (before ++ (key, t) :: after)) : KeysRead (before ++ (key, u) :: after) := by
  unfold KeysRead at h ⊢
  rw [List.forall_mem_append, List.forall_mem_cons] at h ⊢
  exact h

theorem ReadableLike.frame (h : ReadableLike t u) : ReadableLike (f.fill t) (f.fill u) := by
  intro room hread
  cases f with
  | entry before after =>
    obtain ⟨hroom, hall⟩ := readable_list_iff.mp hread
    rw [List.forall_mem_append, List.forall_mem_cons] at hall
    obtain ⟨hbefore, ht, hafter⟩ := hall
    refine readable_list_iff.mpr ⟨hroom, ?_⟩
    rw [List.forall_mem_append, List.forall_mem_cons]
    exact ⟨hbefore, h _ ht, hafter⟩
  | member before key after =>
    obtain ⟨hroom, hkeys, hall⟩ := readable_object_iff.mp hread
    rw [List.forall_mem_append, List.forall_mem_cons] at hall
    obtain ⟨hbefore, ht, hafter⟩ := hall
    refine readable_object_iff.mpr ⟨hroom, keysRead_exchange hkeys, ?_⟩
    rw [List.forall_mem_append, List.forall_mem_cons]
    exact ⟨hbefore, h _ ht, hafter⟩

theorem ReadableLike.fill (h : ReadableLike t u) (hole : List Frame) :
    ReadableLike (Json.fill hole t) (Json.fill hole u) := by
  induction hole with
  | nil => exact h
  | cons f hole ih => exact ih.frame

end Frames

/-! ### Focusing on a hole -/

/-- The meaning `N` of what is in the hole is a part of the meaning `M` of the whole, and it
may be exchanged. -/
structure Focus (M : Meaning α) (h : List Frame) (N : Meaning β) (get : α → Option β) :
    Prop where
  part : ∀ {t : Tree} {a : α}, M (fill h t) a → ∃ b, N t b ∧ get a = some b
  whole : ∀ {t u : Tree} {a : α} {b : β}, M (fill h t) a → ReadableLike t u → N u b →
    ∃ a', M (fill h u) a'

namespace Focus

variable {M : Meaning α} {N : Meaning β} {K : Meaning γ} {h h' : List Frame}
  {get : α → Option β} {get' : β → Option γ}

/-- The part may be described in another way. -/
theorem congr {other : α → Option β} (hM : Focus M h N get) (hget : ∀ a, get a = other a) :
    Focus M h N other := funext hget ▸ hM

/-- A hole in a hole. -/
theorem trans (hM : Focus M h N get) (hN : Focus N h' K get') :
    Focus M (h ++ h') K fun a => (get a).bind get' := by
  constructor
  · intro t a ha
    rw [fill_append] at ha
    obtain ⟨b, hb, hget⟩ := hM.part ha
    obtain ⟨c, hc, hget'⟩ := hN.part hb
    exact ⟨c, hc, by rw [hget, Option.bind_some, hget']⟩
  · intro t u a c ha hread hc
    rw [fill_append] at ha ⊢
    obtain ⟨b, hb, -⟩ := hM.part ha
    obtain ⟨b', hb'⟩ := hN.whole hb hread hc
    exact hM.whole ha (hread.fill h') hb'

/-- A value and its parts have the same holes. -/
theorem map (hM : Focus M h N get) (view : View γ α) :
    Focus (M.map view.whole) h N fun c => get (view.parts c) := by
  constructor
  · rintro t _ ⟨a, ha, rfl⟩
    rw [view.parts_whole]
    exact hM.part ha
  · rintro t u _ b ⟨a, ha, rfl⟩ hread hb
    obtain ⟨a', ha'⟩ := hM.whole ha hread hb
    exact ⟨_, a', ha', rfl⟩

/-- What is in brackets is not null. -/
theorem optional {f : Frame} (hM : Focus M (f :: h) N get) :
    Focus M.optional (f :: h) N fun a => a.bind get := by
  constructor
  · rintro t _ (⟨hnull, -⟩ | ⟨-, a, ha, rfl⟩)
    · exact absurd hnull Frame.not_isNull
    · exact hM.part ha
  · rintro t u _ b (⟨hnull, -⟩ | ⟨-, a, ha, rfl⟩) hread hb
    · exact absurd hnull Frame.not_isNull
    · obtain ⟨a', ha'⟩ := hM.whole ha hread hb
      exact ⟨some a', .inr ⟨Frame.not_isNull, a', ha', rfl⟩⟩

/-- An entry of a list. -/
theorem list (room : Nat) (M : Meaning α) (before after : List Tree) :
    Focus (.list room M) [.entry before after] M fun as => as[before.length]? := by
  constructor
  · rintro t as ⟨-, ts, he, hall⟩
    cases he
    obtain ⟨xs, a, ys, rfl, hxs, ha, -⟩ := forall₂_append_cons_iff.mp hall
    refine ⟨a, ha, ?_⟩
    rw [hxs.length_eq, List.getElem?_append_right (Nat.le_refl _), Nat.sub_self]
    rfl
  · rintro t u as b ⟨hroom, ts, he, hall⟩ - hb
    cases he
    obtain ⟨xs, a, ys, rfl, hxs, -, hys⟩ := forall₂_append_cons_iff.mp hall
    exact ⟨xs ++ b :: ys, hroom, _, rfl, forall₂_append_cons_iff.mpr
      ⟨xs, b, ys, rfl, hxs, hb, hys⟩⟩

end Focus

/-! ### Fields of a record -/

/-- What the members give for the fields depends only on the trees under their names. -/
theorem Slots.congr {ms ms' : List (List Char × Tree)} : {ts : List Type} →
    {row : Row (Entry Meaning) ts} → {slots : Row Option ts} →
    (∀ name ∈ Row.names row, valuesOf name ms' = valuesOf name ms) → Slots row ms slots →
    Slots row ms' slots
  | [], _, _, _, _ => trivial
  | _ :: _, (_, _), (_, _), hvalues, ⟨hslot, hslots⟩ => by
    obtain ⟨hfirst, hrest⟩ := List.forall_mem_cons.mp hvalues
    exact ⟨hfirst ▸ hslot, Slots.congr hrest hslots⟩

theorem complete_cons_eq_ok_iff {F : Type → Type} {ts : List Type} {e : Entry F α}
    {es : Row (Entry F) ts} {slot : Option α} {slots : Row Option ts} {a : α} {as : Tuple ts} :
    @complete F (α :: ts) (e, es) (slot, slots) = .ok (a, as) ↔
      slot.or e.field.absent = some a ∧ complete es slots = .ok as := by
  rw [complete]
  cases slot.or e.field.absent with
  | none => simp
  | some a' =>
    cases complete es slots with
    | error _ => simp
    | ok as' =>
      constructor
      · intro h
        cases h
        exact ⟨rfl, rfl⟩
      · rintro ⟨h, h'⟩
        cases h
        cases h'
        rfl

/-- In the row there is a field with this name, at this place and with this meaning. -/
structure FieldFocus {ts : List Type} (row : Row (Entry Meaning) ts) (name : String) (i : Nat)
    (N : Meaning β) (get : Tuple ts → β) : Prop where
  mem : name ∈ Row.names row
  named_part : ∀ {ms : List (List Char × Tree)} {slots : Row Option ts} {as : Tuple ts}
    {t : Tree}, Slots row ms slots → complete row slots = .ok as → t ∈ valuesOf name ms →
    N t (get as)
  named_whole : ∀ {ms ms' : List (List Char × Tree)} {slots : Row Option ts} {as : Tuple ts}
    {u : Tree} {b : β}, Slots row ms slots → complete row slots = .ok as →
    (∀ other, other ≠ name → valuesOf other ms' = valuesOf other ms) →
    valuesOf name ms' = [u] → N u b →
    ∃ slots' as', Slots row ms' slots' ∧ complete row slots' = .ok as'
  entry_part : ∀ {before after : List Tree} {t : Tree} {as : Tuple ts}, before.length = i →
    InOrder row (before ++ t :: after) as → N t (get as)
  entry_whole : ∀ {before after : List Tree} {t u : Tree} {as : Tuple ts} {b : β},
    before.length = i → InOrder row (before ++ t :: after) as → N u b →
    ∃ as', InOrder row (before ++ u :: after) as'

namespace FieldFocus

variable {ts : List Type} {e : Entry Meaning α} {es : Row (Entry Meaning) ts}

/-- The first field. -/
theorem first (h : e.field.name ∉ Row.names es) :
    @FieldFocus α (α :: ts) (e, es) e.field.name 0 e.body Prod.fst where
  mem := List.mem_cons_self
  named_part {ms slots as t} hslots has ht := by
    obtain ⟨slot, slots⟩ := slots
    obtain ⟨a, as⟩ := as
    obtain ⟨ha, -⟩ := complete_cons_eq_ok_iff.mp has
    cases slot with
    | none =>
      rw [slot_none hslots.1] at ht
      cases ht
    | some a' =>
      obtain ⟨t', ht', hmeans⟩ := slot_some hslots.1
      rw [ht', List.mem_singleton] at ht
      rw [Option.some_or] at ha
      cases ha
      exact ht ▸ hmeans
  named_whole {ms ms' slots as u b} hslots has hothers hu hb := by
    obtain ⟨slot, slots⟩ := slots
    obtain ⟨a, as⟩ := as
    obtain ⟨-, has⟩ := complete_cons_eq_ok_iff.mp has
    refine ⟨(some b, slots), (b, as), ⟨?_, hslots.2.congr fun name hname => ?_⟩,
      complete_cons_eq_ok_iff.mpr ⟨rfl, has⟩⟩
    · rw [hu]
      exact ⟨b, hb, rfl⟩
    · exact hothers name fun he => h (he ▸ hname)
  entry_part {before after t as} hlength has := by
    rw [List.length_eq_zero_iff.mp hlength] at has
    exact has.1
  entry_whole {before after t u as b} hlength has hb := by
    rw [List.length_eq_zero_iff.mp hlength] at has ⊢
    exact ⟨(b, as.2), hb, has.2⟩

/-- A field behind the first. -/
theorem later {name : String} {i : Nat} {N : Meaning β} {get : Tuple ts → β}
    (h : FieldFocus es name i N get) (hne : e.field.name ≠ name) :
    @FieldFocus β (α :: ts) (e, es) name (i + 1) N fun as => get as.2 where
  mem := List.mem_cons_of_mem _ h.mem
  named_part {ms slots as t} hslots has ht :=
    h.named_part hslots.2 (complete_cons_eq_ok_iff.mp has).2 ht
  named_whole {ms ms' slots as u b} hslots has hothers hu hb := by
    obtain ⟨slot, slots⟩ := slots
    obtain ⟨a, as⟩ := as
    obtain ⟨ha, has⟩ := complete_cons_eq_ok_iff.mp has
    obtain ⟨slots', as', hslots', has'⟩ := h.named_whole hslots.2 has hothers hu hb
    refine ⟨(slot, slots'), (a, as'), ⟨?_, hslots'⟩, complete_cons_eq_ok_iff.mpr ⟨ha, has'⟩⟩
    rw [hothers _ hne]
    exact hslots.1
  entry_part {before after t as} hlength has := by
    cases before with
    | nil => cases hlength
    | cons x before => exact h.entry_part (Nat.succ.inj hlength) has.2
  entry_whole {before after t u as b} hlength has hb := by
    cases before with
    | nil => cases hlength
    | cons x before =>
      obtain ⟨as', has'⟩ := h.entry_whole (Nat.succ.inj hlength) has.2 hb
      exact ⟨(as.1, as'), has.1, has'⟩

end FieldFocus

/-- The hole is the value of a field: under its name, or at its place. -/
inductive FieldFrame (name : String) (i : Nat) : Frame → Prop
  | member {before after : List (List Char × Tree)} {key : List Char} :
      StringToken key name → FieldFrame name i (.member before key after)
  | entry {before after : List Tree} : before.length = i →
      FieldFrame name i (.entry before after)

section Members

variable {before after : List (List Char × Tree)} {key : List Char} {name : String} {t u : Tree}

theorem valuesOf_hole (h : keyName key = some name) :
    valuesOf name (before ++ (key, t) :: after) =
      valuesOf name before ++ t :: valuesOf name after := by
  rw [valuesOf, List.filterMap_append]
  exact congrArg _ (valuesOf_cons_of_eq h)

/-- Under other names the tree in the hole makes no difference. -/
theorem valuesOf_exchange (h : keyName key = some name) {other : String} (hne : other ≠ name) :
    valuesOf other (before ++ (key, u) :: after) =
      valuesOf other (before ++ (key, t) :: after) := by
  rw [valuesOf, valuesOf, List.filterMap_append, List.filterMap_append]
  refine congrArg _ ((valuesOf_cons_of_ne ?_).trans (valuesOf_cons_of_ne ?_).symm)
  all_goals exact keyName_ne h hne.symm

end Members

/-- **A record focuses on its fields**, in both notations. -/
theorem Focus.field {room : Nat} {ts : List Type} {row : Row (Entry Meaning) ts} {name : String}
    {i : Nat} {N : Meaning β} {get : Tuple ts → β} (h : FieldFocus row name i N get) {f : Frame}
    (hf : FieldFrame name i f) : Focus (.record room row) [f] N fun as => some (get as) := by
  cases hf with
  | @member before after key hkey =>
    have hname := hkey.keyName
    constructor
    · rintro t as ⟨-, ⟨_, he, -⟩ | ⟨ms, slots, he, -, hslots, has⟩⟩
      · cases he
      · cases he
        have ht : t ∈ valuesOf name (before ++ (key, t) :: after) :=
          mem_valuesOf (List.mem_append_right _ List.mem_cons_self) hname
        exact ⟨_, h.named_part hslots has ht, rfl⟩
    · rintro t u as b ⟨hroom, ⟨_, he, -⟩ | ⟨ms, slots, he, hread, hslots, has⟩⟩ - hb
      · cases he
      · cases he
        -- there is no other member under the name
        have honce := hslots.once name h.mem
        rw [valuesOf_hole hname, List.length_append, List.length_cons] at honce
        have hbefore : valuesOf name before = [] := List.eq_nil_of_length_eq_zero (by omega)
        have hafter : valuesOf name after = [] := List.eq_nil_of_length_eq_zero (by omega)
        have hu : valuesOf name (before ++ (key, u) :: after) = [u] := by
          rw [valuesOf_hole hname, hbefore, hafter]
          rfl
        obtain ⟨slots', as', hslots', has'⟩ := h.named_whole hslots has
          (fun _ hne => valuesOf_exchange hname hne) hu hb
        exact ⟨as', hroom, .inr ⟨_, slots', rfl, keysRead_exchange hread, hslots', has'⟩⟩
  | entry hlength =>
    constructor
    · rintro t as ⟨-, ⟨trees, he, has⟩ | ⟨_, _, he, -⟩⟩
      · cases he
        exact ⟨_, h.entry_part hlength has, rfl⟩
      · cases he
    · rintro t u as b ⟨hroom, ⟨trees, he, has⟩ | ⟨_, _, he, -⟩⟩ - hb
      · cases he
        obtain ⟨as', has'⟩ := h.entry_whole hlength has hb
        exact ⟨as', hroom, .inl ⟨_, rfl, has'⟩⟩
      · cases he

/-- The first field of a record. -/
theorem Fields.focus_first {room : Nat} {ts : List Type} {field : Field α} {s : Shape α}
    {rest : Fields ts} (h : field.name ∉ rest.names) :
    FieldFocus ((Fields.cons field s rest).means room) field.name 0 (s.means room) Prod.fst := by
  rw [Fields.means]
  refine FieldFocus.first ?_
  rwa [names_means]

/-- A field behind the first. -/
theorem Fields.focus_later {room : Nat} {ts : List Type} {field : Field α} {s : Shape α}
    {rest : Fields ts} {name : String} {i : Nat} {N : Meaning β} {get : Tuple ts → β}
    (h : FieldFocus (rest.means room) name i N get) (hne : field.name ≠ name) :
    FieldFocus ((Fields.cons field s rest).means room) name (i + 1) N fun as => get as.2 := by
  rw [Fields.means]
  exact h.later hne

/-- The third field of a record. -/
theorem Fields.focus_third {room : Nat} {ts : List Type} {first : Field α} {second : Field β}
    {field : Field γ} {s₁ : Shape α} {s₂ : Shape β} {s : Shape γ} {rest : Fields ts} (h₁ : first.name ≠ field.name)
    (h₂ : second.name ≠ field.name) (h : field.name ∉ rest.names) :
    FieldFocus ((Fields.cons first s₁ (.cons second s₂ (.cons field s rest))).means room)
      field.name 2 (s.means room) fun as => as.2.2.1 :=
  Fields.focus_later (Fields.focus_later (Fields.focus_first h) h₂) h₁

theorem RecordShape.focus {room : Nat} {ts : List Type} {title name : String} {fields : Fields ts}
    {view : View α (Tuple ts)} {i : Nat} {N : Meaning β} {get : Tuple ts → β}
    (h : FieldFocus (fields.means (room - 1)) name i N get) {f : Frame}
    (hf : FieldFrame name i f) :
    Focus ((RecordShape.mk title fields view).means room) [f] N
      fun a => some (get (view.parts a)) := by
  rw [RecordShape.means]
  exact (Focus.field h hf).map view

/-! ### Fields of a tagged choice -/

/-- The hole is the value of a field of the record under the label: beside a tag with this
label, or at the place of the field behind the label. -/
inductive TaggedFrame (tag label name : String) (i : Nat) : Frame → Prop
  | member {before after : List (List Char × Tree)} {key k : List Char} {l : Tree} :
      StringToken key name → (k, l) ∈ before ++ after → StringToken k tag → l.IsText label →
      TaggedFrame tag label name i (.member before key after)
  | entry {before after : List Tree} {l : Tree} : l.IsText label → before.length = i →
      TaggedFrame tag label name i (.entry (l :: before) after)

/-- Under the label there is this record, and it may be picked from the choice. -/
structure Variants.Picks {ts : List Type} (v : Variants ts) (label : String)
    (r : RecordShape β) (pick : Choice ts → Option β) : Prop where
  exists_choice : ∀ b, ∃ x, pick x = some b
  means_iff : ∀ {room : Nat} {t : Tree} {x : Choice ts},
    v.Means room label t x ↔ ∃ b, pick x = some b ∧ r.means room t b

section Picks

variable {ts : List Type} {r : RecordShape β} {rest : Variants ts} {label : String}

/-- The first record is picked under its own label. -/
theorem Variants.picks_first : (Variants.cons label r rest).Picks label r
    fun | .inl b => some b | .inr _ => none where
  exists_choice b := ⟨.inl b, rfl⟩
  means_iff {room t x} := by
    cases x with
    | inl b =>
      rw [Variants.means_inl]
      simp
    | inr x =>
      rw [Variants.means_inr]
      simp

/-- The other records are picked as without the first. -/
theorem Variants.picks_later {r' : RecordShape γ} {other : String} {pick : Choice ts → Option γ}
    (h : rest.Picks other r' pick) (hne : other ≠ label) :
    (Variants.cons label r rest).Picks other r' fun | .inl _ => none | .inr x => pick x where
  exists_choice c := by
    obtain ⟨x, hx⟩ := h.exists_choice c
    exact ⟨.inr x, hx⟩
  means_iff {room t x} := by
    cases x with
    | inl b =>
      rw [Variants.means_inl]
      simp [hne]
    | inr x =>
      rw [Variants.means_inr, h.means_iff]
      simp [hne]

end Picks

section Tagged

variable {name tag label field : String} {ts : List Type} {variants : Variants ts}
  {view : View α (Choice ts)} {room i : Nat} {r : RecordShape β} {pick : Choice ts → Option β}
  {N : Meaning γ} {get : β → Option γ}

/-- **A tagged choice focuses on the fields of the record that its tag names.** -/
theorem Focus.tagged (hlawful : (Shape.tagged name tag variants view).Lawful)
    (hpick : variants.Picks label r pick)
    (hr : ∀ f, FieldFrame field i f → Focus (r.means room) [f] N get) (hne : field ≠ tag)
    {f : Frame} (hf : TaggedFrame tag label field i f) :
    Focus ((Shape.tagged name tag variants view).means room) [f] N
      fun a => (pick (view.parts a)).bind get := by
  cases hf with
  | @member before after key k l hkey hmem hk hl =>
    have hname := hkey.keyName
    -- the tag stands beside the hole, so that it is the same for all trees in the hole
    have hlabel : ∀ {t label'}, HasTag tag label' (before ++ (key, t) :: after) →
        label' = label := by
      rintro t label' ⟨l', hl', hlabel'⟩
      have hmem' : (k, l) ∈ before ++ (key, t) :: after := by
        rw [List.mem_append, List.mem_cons]
        exact (List.mem_append.mp hmem).imp_right .inr
      have hvalue := mem_valuesOf hmem' hk.keyName
      rw [hl', List.mem_singleton] at hvalue
      exact hlabel'.unique (hvalue ▸ hl)
    constructor
    · intro t a ha
      obtain ⟨label', htag, -, hmeans⟩ := (Shape.means_object_iff hlawful).mp ha
      obtain rfl := hlabel htag
      obtain ⟨b, hb, hmeans⟩ := hpick.means_iff.mp hmeans
      rw [hb, Option.bind_some]
      exact (hr _ (.member hkey)).part hmeans
    · intro t u a c ha hread hc
      obtain ⟨label', htag, hall, hmeans⟩ := (Shape.means_object_iff hlawful).mp ha
      obtain rfl := hlabel htag
      obtain ⟨b, -, hmeans⟩ := hpick.means_iff.mp hmeans
      obtain ⟨b', hb'⟩ := (hr _ (.member hkey)).whole hmeans hread hc
      obtain ⟨x, hx⟩ := hpick.exists_choice b'
      obtain ⟨l', hl', hlabel'⟩ := htag
      have htag' : HasTag tag label' (before ++ (key, u) :: after) :=
        ⟨l', (valuesOf_exchange hname hne.symm).trans hl', hlabel'⟩
      have hall' : ∀ m ∈ before ++ (key, u) :: after, m.2.Readable (room - 1) := by
        have hall := readable_of_others hl' hlabel' hall
        rw [List.forall_mem_append, List.forall_mem_cons] at hall ⊢
        exact ⟨hall.1, hread _ hall.2.1, hall.2.2⟩
      refine ⟨view.whole x, (Shape.means_object_iff hlawful).mpr ⟨label', htag',
        fun m hm => hall' m (List.mem_of_mem_filter hm), ?_⟩⟩
      rw [view.parts_whole]
      exact hpick.means_iff.mpr ⟨b', hx, hb'⟩
  | @entry before after l hl hlength =>
    constructor
    · intro t a ha
      obtain ⟨-, label', hl', -, hmeans⟩ := Shape.means_list_iff.mp ha
      obtain rfl := hl'.unique hl
      obtain ⟨b, hb, hmeans⟩ := hpick.means_iff.mp hmeans
      rw [hb, Option.bind_some]
      exact (hr _ (.entry hlength)).part hmeans
    · intro t u a c ha hread hc
      have ha' : (Shape.tagged name tag variants view).means room
          (.list (l :: (before ++ t :: after))) a := ha
      obtain ⟨hroom, label', hl', hall, hmeans⟩ := Shape.means_list_iff.mp ha'
      obtain rfl := hl'.unique hl
      obtain ⟨b, -, hmeans⟩ := hpick.means_iff.mp hmeans
      obtain ⟨b', hb'⟩ := (hr _ (.entry hlength)).whole hmeans hread hc
      obtain ⟨x, hx⟩ := hpick.exists_choice b'
      have hall' : ∀ t' ∈ before ++ u :: after, t'.Readable (room - 1) := by
        rw [List.forall_mem_append, List.forall_mem_cons] at hall ⊢
        exact ⟨hall.1, hread _ hall.2.1, hall.2.2⟩
      refine ⟨view.whole x, Shape.means_list_iff.mpr ⟨hroom, label', hl', hall', ?_⟩⟩
      rw [view.parts_whole]
      exact hpick.means_iff.mpr ⟨b', hx, hb'⟩

end Tagged

end Json
end ModelStubs
