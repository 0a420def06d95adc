/-
# Reading is decoding what the text spells

A shape is read from a text in one pass, and decoded from a value. Both do the same:
if a text spells a value and the value can be decoded, the text can be read, gives
what was decoded and leaves the rest of the text (`Json.Shape.agrees`). Facts on the
reader can so be proved on values, where entries are lists and keys are compared as
strings.

The readers are built from readers, so the agreement is lifted through each of the
ways to build them (`Json.Agrees.list`, `Json.Agrees.record` and so on). Entries that
are no field are where the two differ: they are passed over in a text and were read
in a value.

Key definitions: `Json.Agrees`, `Json.RowsAgree`.
Key theorems: `Json.agrees_scalar`, `Json.Agrees.optional`, `Json.Agrees.list`,
`Json.Agrees.record`, `Json.agrees_tagged`, `Json.Shape.agrees`.
-/
import ModelStubs.Proofs.Json.Passing

namespace ModelStubs
namespace Json

/-- What the decoder makes of a value the reader makes of every text that spells it. -/
def Agrees {α : Type} (room : Nat) (d : Decoder α) (r : Reader α) : Prop :=
  ∀ (s : List Char) (v : Value) (rest : List Char) (a : α), Spells room s v rest →
    d v = .ok a → r.run s = .ok (a, rest)

/-! ### Scalars and labels -/

theorem agrees_scalar {α : Type} (room : Nat) (k : ScalarShape α) :
    Agrees room k.decode (.scalar k) := by
  intro s v rest a hs hd
  cases hs with
  | scalar hh =>
    have hk : k.ofScalar _ = .ok a := hd
    unfold Reader.scalar
    simp only [hh, hk]
  | list => cases hd
  | object => cases hd

theorem agrees_label {α : Type} (room : Nat) (known : List String)
    (choose : String → Option (Decoder α)) :
    Agrees room (decodeLabel known choose) (.label known choose) := by
  intro s v rest d hs hd
  unfold decodeLabel at hd
  split at hd
  · cases hd
  · next l hl =>
    have hread := agrees_scalar room .label s v rest l hs hl
    unfold Reader.label
    simp only [hread]
    split at hd
    · cases hd
    · cases hd; rfl

/-! ### What is null, and functions of what is read -/

theorem optional_of_null {α : Type} {r : Reader α} {s rest : List Char}
    (h : head s = .ok (.scalar .null rest)) : r.optional.run s = .ok (none, rest) := by
  cases begins_of_head h with
  | null hs hw =>
    unfold Reader.optional
    simp only [hs, if_true, hw]

theorem optional_of_ne {α : Type} {r : Reader α} {s : List Char}
    (h : ∀ t, skipSpace s ≠ 'n' :: t) : r.optional.run s = mapped some (r.run (skipSpace s)) := by
  unfold Reader.optional
  cases hs : skipSpace s with
  | nil => simp only [hs]
  | cons c t =>
    have hc : c ≠ 'n' := fun e => h t (by rw [hs, e])
    simp only [hs, if_neg hc]

/-- Spaces in front make no difference to what a text spells. -/
theorem Spells.skipSpace {room : Nat} {s rest : List Char} {v : Value}
    (h : Spells room s v rest) : Spells room (skipSpace s) v rest := by
  have hhead := head_congr (skipSpace_skipSpace s)
  cases h with
  | scalar hh => exact .scalar (hhead.trans hh)
  | list hh hs hc => exact .list (hhead.trans hh) hs hc
  | object hh hs hc => exact .object (hhead.trans hh) hs hc

/-- Only null is spelled by a text with an `n` in front. -/
theorem Spells.eq_null {room : Nat} {s t rest : List Char} {v : Value}
    (h : Spells room s v rest) (hs : Json.skipSpace s = 'n' :: t) : v = .null := by
  have hhead : ∀ x, head s = .ok x → ∃ u, x = .scalar .null u := by
    intro x hx
    unfold head at hx
    rw [hs] at hx
    obtain ⟨u, -, rfl⟩ := wordHead_eq_ok hx
    exact ⟨u, rfl⟩
  cases h with
  | scalar hh =>
    obtain ⟨u, e⟩ := hhead _ hh
    cases e
    rfl
  | list hh =>
    obtain ⟨u, e⟩ := hhead _ hh
    cases e
  | object hh =>
    obtain ⟨u, e⟩ := hhead _ hh
    cases e

theorem decode_optional_of_ne {α : Type} {d : Decoder α} {v : Value} (h : v ≠ .null) :
    d.optional v = d.map some v := by
  unfold Decoder.optional
  split
  · exact absurd rfl h
  · rfl

theorem decode_map_eq_ok {α β : Type} {f : α → β} {d : Decoder α} {v : Value} {b : β} :
    d.map f v = .ok b ↔ ∃ a, d v = .ok a ∧ f a = b := by
  unfold Decoder.map
  constructor
  · intro h
    split at h
    · cases h
    · next a ha => cases h; exact ⟨a, ha, rfl⟩
  · rintro ⟨a, ha, rfl⟩
    rw [ha]

theorem Agrees.map {α β : Type} {room : Nat} {d : Decoder α} {r : Reader α}
    (h : Agrees room d r) (f : α → β) : Agrees room (d.map f) (r.map f) := by
  intro s v rest b hs hd
  obtain ⟨a, ha, rfl⟩ := decode_map_eq_ok.mp hd
  show mapped f (r.run s) = _
  rw [h s v rest a hs ha]
  rfl

theorem Agrees.optional {α : Type} {room : Nat} {d : Decoder α} {r : Reader α}
    (h : Agrees room d r) : Agrees room d.optional r.optional := by
  intro s v rest a hs hd
  by_cases hv : v = .null
  · subst hv
    have ha : none = a := Except.ok.inj hd
    subst ha
    cases hs with
    | scalar hh => exact optional_of_null hh
  · rw [decode_optional_of_ne hv] at hd
    obtain ⟨b, hb, rfl⟩ := decode_map_eq_ok.mp hd
    have hne : ∀ t, skipSpace s ≠ 'n' :: t := fun t ht => hv (hs.eq_null ht)
    rw [optional_of_ne hne, h _ v rest b hs.skipSpace hb]
    rfl

/-! ### Lists -/

theorem decodeAll_cons {α : Type} {d : Decoder α} {v : Value} {vs : List Value} {as : List α} :
    decodeAll d (v :: vs) = .ok as ↔
      ∃ b bs, d v = .ok b ∧ decodeAll d vs = .ok bs ∧ as = b :: bs := by
  rw [decodeAll]
  constructor
  · intro h
    split at h
    · cases h
    · next b hb =>
      split at h
      · cases h
      · next bs hbs => cases h; exact ⟨b, bs, hb, hbs, rfl⟩
  · rintro ⟨b, bs, hb, hbs, rfl⟩
    rw [hb]
    simp only [hbs]

theorem Agrees.items {α : Type} {room : Nat} {d : Decoder α} {r : Reader α}
    (h : Agrees room d r) {first : Bool} {s t : List Char} {vs : List Value}
    (hs : Items (Value.reader room) first s vs t) {as : List α} (hd : decodeAll d vs = .ok as) :
    Items r first s as t := by
  induction hs generalizing as with
  | nil hn =>
    cases hd
    exact .nil hn
  | cons hn hv _ ih =>
    obtain ⟨b, bs, hb, hbs, rfl⟩ := decodeAll_cons.mp hd
    exact .cons hn (h _ _ _ b (value_reader_eq_ok_iff.mp hv) hb) (ih hbs)

/-- Lists agree if their entries do with one bracket less. -/
theorem Agrees.list {α : Type} {room : Nat} {d : Decoder α} {r : Reader α}
    (h : Agrees (room - 1) d r) : Agrees room d.list (.list room r) := by
  intro s v rest as hs hd
  cases hs with
  | scalar => cases hd
  | @list room _ _ u _ vs hh hi hc =>
    have hread : listRest r _ = .ok (as, rest) :=
      listRest_eq_ok_iff.mpr ⟨u, Agrees.items h hi hd, hc⟩
    unfold Reader.list
    simp only [hh, if_neg (Nat.succ_ne_zero room), hread]
  | object => cases hd

/-! ### Records -/

/-- The rows have the same fields, and their bodies agree. -/
def RowsAgree (room : Nat) : {ts : List Type} → Row (Entry Decoder) ts → Row (Entry Reader) ts →
    Prop
  | [], _, _ => True
  | _ :: _, (d, ds), (r, rs) => d.field = r.field ∧ Agrees room d.body r.body ∧ RowsAgree room ds rs

theorem RowsAgree.complete {room : Nat} : {ts : List Type} → {ds : Row (Entry Decoder) ts} →
    {rs : Row (Entry Reader) ts} → RowsAgree room ds rs → (slots : Row Option ts) →
    complete ds slots = complete rs slots
  | [], _, _, _, _ => rfl
  | _ :: _, (d, ds), (r, rs), ⟨hf, _, h⟩, (slot, slots) => by
    rw [Json.complete, Json.complete, hf, h.complete slots]

/-- A key that is no field is none of either row. -/
theorem RowsAgree.readField_none {room : Nat} : {ts : List Type} →
    {ds : Row (Entry Decoder) ts} → {rs : Row (Entry Reader) ts} → RowsAgree room ds rs →
    {slots : Row Option ts} → {k : String} → {v : Value} → (s : List Char) →
    decodeField ds slots k v = .ok none → readField rs slots k s = .ok none
  | [], _, _, _, _, _, _, _, _ => rfl
  | _ :: _, (d, ds), (r, rs), ⟨hf, _, h⟩, (slot, slots), k, v, s, hd => by
    rw [decodeField] at hd
    rw [readField]
    by_cases hk : k = d.field.name
    · rw [if_pos hk] at hd
      split at hd
      · cases hd
      · split at hd <;> cases hd
    · rw [if_neg hk] at hd
      rw [if_neg (hf ▸ hk)]
      split at hd
      · cases hd
      · next hn => rw [h.readField_none s hn]
      · cases hd

/-- The value of a field is read into the row as it is decoded. -/
theorem RowsAgree.readField_some {room : Nat} : {ts : List Type} →
    {ds : Row (Entry Decoder) ts} → {rs : Row (Entry Reader) ts} → RowsAgree room ds rs →
    {x y : Row Option ts} → {k : String} → {v : Value} → {s t rest : List Char} →
    colon s = .ok t → Spells room t v rest → decodeField ds x k v = .ok (some y) →
    readField rs x k s = .ok (some (y, rest))
  | [], _, _, _, _, _, _, _, _, _, _, _, _, hd => by cases hd
  | _ :: _, (d, ds), (r, rs), ⟨hf, hb, h⟩, (slot, slots), y, k, v, s, t, rest, hc, hs, hd => by
    rw [decodeField] at hd
    rw [readField]
    by_cases hk : k = d.field.name
    · rw [if_pos hk] at hd
      rw [if_pos (hf ▸ hk)]
      split at hd
      · cases hd
      · next hslot =>
        rw [if_neg hslot]
        split at hd
        · cases hd
        · next a ha =>
          cases hd
          have hread : r.body.afterColon s = .ok (a, rest) :=
            afterColon_eq_ok_iff.mpr ⟨t, hc, hb t v rest a hs ha⟩
          rw [hread]
    · rw [if_neg hk] at hd
      rw [if_neg (hf ▸ hk)]
      split at hd
      · cases hd
      · cases hd
      · next z hz =>
        cases hd
        rw [h.readField_some hc hs hz]

/-- The entries of an object are read into the row as they are decoded. -/
theorem RowsAgree.members {room : Nat} {ts : List Type} {ds : Row (Entry Decoder) ts}
    {rs : Row (Entry Reader) ts} (h : RowsAgree room ds rs) {first : Bool} {s t : List Char}
    {ms : List (String × Value)} (hs : Members (Value.reader room) first s ms t)
    {x y : Row Option ts} (hd : decodeMembers ds x ms = .ok y) :
    members (.record rs) first x s = .ok (y, t) := by
  induction hs generalizing x with
  | nil hn =>
    cases hd
    exact members_of_ended hn
  | @cons first s t u w rest k v ms hn hk ha _ ih =>
    obtain ⟨t', hc, hv⟩ := afterColon_eq_ok_iff.mp ha
    have hspells := value_reader_eq_ok_iff.mp hv
    rw [decodeMembers] at hd
    split at hd
    · cases hd
    · next hf =>
      have hrun : (MemberReader.record rs).run x k u = .ok (x, w) := by
        unfold MemberReader.record passMember
        simp only [h.readField_none u hf, hc, passValue_of_spells hspells]
      rw [members_of_more hn hk hrun]
      exact ih hd
    · next z hf =>
      have hrun : (MemberReader.record rs).run x k u = .ok (z, w) := by
        unfold MemberReader.record
        simp only [h.readField_some hc hspells hf]
      rw [members_of_more hn hk hrun]
      exact ih hd

/-- A field behind the last entry of a list has its default. -/
theorem decodeFields_absent {name : String} {total index : Nat} {α : Type} {ts : List Type}
    {e : Entry Decoder α} {es : Row (Entry Decoder) ts} {as : Tuple (α :: ts)}
    {rest : List Value} :
    @decodeFields name total (α :: ts) (e, es) index [] = .ok (as, rest) ↔
      ∃ a bs, e.field.absent = some a ∧
        decodeFields name total es (index + 1) [] = .ok (bs, rest) ∧ as = (a, bs) := by
  rw [decodeFields]
  constructor
  · intro h
    split at h
    · cases h
    · next a ha =>
      split at h
      · cases h
      · next bs _ hbs => cases h; exact ⟨a, bs, ha, hbs, rfl⟩
  · rintro ⟨a, bs, ha, hbs, rfl⟩
    rw [ha]
    simp only [hbs]

/-- The next entry of a list is the value of the next field. -/
theorem decodeFields_present {name : String} {total index : Nat} {α : Type} {ts : List Type}
    {e : Entry Decoder α} {es : Row (Entry Decoder) ts} {v : Value} {vs rest : List Value}
    {as : Tuple (α :: ts)} :
    @decodeFields name total (α :: ts) (e, es) index (v :: vs) = .ok (as, rest) ↔
      ∃ a bs, e.body v = .ok a ∧
        decodeFields name total es (index + 1) vs = .ok (bs, rest) ∧ as = (a, bs) := by
  rw [decodeFields]
  constructor
  · intro h
    split at h
    · cases h
    · next a ha =>
      split at h
      · cases h
      · next bs _ hbs => cases h; exact ⟨a, bs, ha, hbs, rfl⟩
  · rintro ⟨a, bs, ha, hbs, rfl⟩
    rw [ha]
    simp only [hbs]

theorem readFields_absent {name : String} {total index : Nat} {α : Type} {ts : List Type}
    {e : Entry Reader α} {es : Row (Entry Reader) ts} {s t u : List Char} {a : α} {as : Tuple ts}
    (hn : nextItem (index == 0) s = .ok (.ended t)) (ha : e.field.absent = some a)
    (hr : readFields name total es (index + 1) t = .ok (as, u)) :
    @readFields name total (α :: ts) (e, es) index s = .ok ((a, as), u) := by
  rw [readFields]
  simp only [hn, ha, hr]

theorem readFields_present {name : String} {total index : Nat} {α : Type} {ts : List Type}
    {e : Entry Reader α} {es : Row (Entry Reader) ts} {s t u v : List Char} {a : α}
    {as : Tuple ts} (hn : nextItem (index == 0) s = .ok (.more t)) (ha : e.body.run t = .ok (a, u))
    (hr : readFields name total es (index + 1) u = .ok (as, v)) :
    @readFields name total (α :: ts) (e, es) index s = .ok ((a, as), v) := by
  rw [readFields]
  simp only [hn, ha, hr]

/-- The entries of a list are read as the fields as they are decoded. The reader may stop
before the spaces in front of the bracket, which makes no difference to what closes
it. -/
theorem RowsAgree.fields {room : Nat} (name : String) (total : Nat) : {ts : List Type} →
    {ds : Row (Entry Decoder) ts} → {rs : Row (Entry Reader) ts} → RowsAgree room ds rs →
    {index : Nat} → {s t : List Char} → {vs : List Value} → {as : Tuple ts} →
    Items (Value.reader room) (index == 0) s vs t →
    decodeFields name total ds index vs = .ok (as, []) →
    ∃ u, readFields name total rs index s = .ok (as, u) ∧ closeList u = closeList t
  | [], _, _, _, index, s, t, vs, as, hs, hd => by
    cases hd
    cases hs with
    | nil hn =>
      obtain ⟨u, hu, rfl⟩ := nextEntry_ended_iff.mp (nextItem_eq _ _ ▸ hn)
      have hspace := hu.trans (skipSpace_cons (isSpace_closer .list) u).symm
      refine ⟨s, rfl, ?_⟩
      unfold closeList
      rw [hspace]
  | _ :: _, (d, ds), (r, rs), ⟨hf, hb, h⟩, index, s, t, [], as, .nil hn, hd => by
    obtain ⟨a, bs, ha, hbs, rfl⟩ := decodeFields_absent.mp hd
    have hnext : Items (Value.reader room) (index + 1 == 0) t [] t := by
      obtain ⟨u, -, rfl⟩ := nextEntry_ended_iff.mp (nextItem_eq _ _ ▸ hn)
      exact .nil (nextEntry_bracket .list _ u)
    obtain ⟨u, hu, hclose⟩ := h.fields name total hnext hbs
    exact ⟨u, readFields_absent hn (hf ▸ ha) hu, hclose⟩
  | _ :: _, (d, ds), (r, rs), ⟨hf, hb, h⟩, index, s, t, v :: vs, as, .cons hn hv hrest, hd => by
    obtain ⟨a, bs, ha, hbs, rfl⟩ := decodeFields_present.mp hd
    have hread := hb _ v _ a (value_reader_eq_ok_iff.mp hv) ha
    have hnext : Items (Value.reader room) (index + 1 == 0) _ vs t := hrest
    obtain ⟨u, hu, hclose⟩ := h.fields name total hnext hbs
    exact ⟨u, readFields_present hn hread hu, hclose⟩

/-- Records agree if their fields do with one bracket less. -/
theorem Agrees.record {room : Nat} (name : String) {ts : List Type} {ds : Row (Entry Decoder) ts}
    {rs : Row (Entry Reader) ts} (h : RowsAgree (room - 1) ds rs) :
    Agrees room (decodeRecord name ds) (.record room name rs) := by
  intro s v rest as hs hd
  cases hs with
  | scalar => cases hd
  | @list room _ t u _ vs hh hi hc =>
    rw [decodeRecord] at hd
    have hfields : decodeFields name ts.length ds 0 vs = .ok (as, []) := by
      split at hd
      · cases hd
      · next hf => cases hd; exact hf
      · cases hd
    have hitems : Items (Value.reader room) (0 == 0) t vs u := hi
    obtain ⟨w, hw, hclose⟩ := RowsAgree.fields name ts.length h hitems hfields
    unfold Reader.record
    simp only [hh, if_neg (Nat.succ_ne_zero room), hw]
    exact closed_ok (hclose.trans hc)
  | @object room _ t u _ ms hh hm hc =>
    rw [decodeRecord] at hd
    split at hd
    · cases hd
    · next slots hslots =>
      have hread : readMembers rs t = .ok (as, u) := by
        unfold readMembers
        rw [RowsAgree.members h hm hslots]
        simp only [← RowsAgree.complete h, hd]
      unfold Reader.record
      simp only [hh, if_neg (Nat.succ_ne_zero room), hread]
      exact closed_ok hc

/-! ### Tagged choices -/

theorem tagged_run_tag {α : Type} {tag : String} {label : Reader (Decoder α)}
    {inner : Reader Value} {done : List (String × Value)} {s t : List Char} {d : Decoder α}
    (h : label.afterColon s = .ok (d, t)) :
    (MemberReader.tagged tag label inner).run ⟨none, done⟩ tag s = .ok (⟨some d, done⟩, t) := by
  unfold MemberReader.tagged
  simp only [if_true, Option.isSome_none, Bool.false_eq_true, if_false, h]

theorem tagged_run_other {α : Type} {tag k : String} {label : Reader (Decoder α)}
    {inner : Reader Value} {x : Tagged α} {s t : List Char} {v : Value} (hk : k ≠ tag)
    (h : inner.afterColon s = .ok (v, t)) :
    (MemberReader.tagged tag label inner).run x k s =
      .ok (⟨x.chosen, (k, v) :: x.others⟩, t) := by
  unfold MemberReader.tagged
  simp only [if_neg hk, h]

/-- The tag is found among the entries of an object as it is among decoded entries. -/
theorem members_tagged {α : Type} {room : Nat} {tag : String} {known : List String}
    {choose : String → Option (Decoder α)} {first : Bool} {s t : List Char}
    {ms others : List (String × Value)} (hs : Members (Value.reader room) first s ms t)
    {found chosen : Option (Decoder α)} {done : List (String × Value)}
    (hd : decodeTag tag known choose found ms = .ok (chosen, others)) :
    members (.tagged tag (.label known choose) (Value.reader room)) first ⟨found, done⟩ s =
      .ok (⟨chosen, others.reverse ++ done⟩, t) := by
  induction hs generalizing found done others with
  | nil hn =>
    cases hd
    exact members_of_ended hn
  | @cons first s t u w rest k v ms hn hk ha _ ih =>
    rw [decodeTag] at hd
    by_cases htag : k = tag
    · rw [if_pos htag] at hd
      subst htag
      cases found with
      | some d => cases hd
      | none =>
        simp only [Option.isSome_none, Bool.false_eq_true, if_false] at hd
        split at hd
        · cases hd
        · next d hl =>
          obtain ⟨t', hc, hv⟩ := afterColon_eq_ok_iff.mp ha
          have hlabel := agrees_label room known choose _ v _ d (value_reader_eq_ok_iff.mp hv) hl
          have hafter : (Reader.label known choose).afterColon u = .ok (d, w) :=
            afterColon_eq_ok_iff.mpr ⟨t', hc, hlabel⟩
          rw [members_of_more hn hk (tagged_run_tag hafter)]
          exact ih hd
    · rw [if_neg htag] at hd
      split at hd
      · cases hd
      · next hrest =>
        cases hd
        rw [members_of_more hn hk (tagged_run_other htag ha), ih hrest, List.reverse_cons,
          List.append_assoc]
        rfl

/-- A list with a label in front is read as the label and the other entries. -/
theorem readTaggedList_of_items {α : Type} {room : Nat} {tag : String} {known : List String}
    {choose : String → Option (Decoder α)} {s t : List Char} {l : Value} {vs : List Value}
    {d : Decoder α} (hs : Items (Value.reader room) true s (l :: vs) t)
    (hl : decodeLabel known choose l = .ok d) :
    readTaggedList tag (.label known choose) (Value.reader room) s = .ok ((d, .list vs), t) := by
  cases hs with
  | cons hn hv hrest =>
    have hread := agrees_label room known choose _ l _ d (value_reader_eq_ok_iff.mp hv) hl
    have hitems : items (Value.reader room) false [] _ = .ok (vs, t) :=
      items_eq_ok_iff.mpr ⟨vs, rfl, hrest⟩
    unfold readTaggedList
    simp only [hn, hread, hitems]

/-- An object with a tag is read as what its label names and the other entries. -/
theorem readTaggedObject_of_members {α : Type} {room : Nat} {tag : String} {known : List String}
    {choose : String → Option (Decoder α)} {s t : List Char} {ms others : List (String × Value)}
    {d : Decoder α} (hs : Members (Value.reader room) true s ms t)
    (hd : decodeTag tag known choose none ms = .ok (some d, others)) :
    readTaggedObject tag (.label known choose) (Value.reader room) s =
      .ok ((d, .object others), t) := by
  unfold readTaggedObject
  rw [members_tagged hs hd]
  simp only [List.append_nil, List.reverse_reverse]

theorem decodeBody_ok {α : Type} {d : Decoder α} {v : Value} {a : α} {s : List Char}
    (h : d v = .ok a) : decodeBody (.ok ((d, v), s)) = .ok (a, s) := by
  unfold decodeBody
  simp only [h]

/-- Tagged choices agree: the entries behind the tag are read as values first. -/
theorem agrees_tagged {α : Type} (room : Nat) (name tag : String) (known : List String)
    (choose : String → Option (Decoder α)) :
    Agrees room (decodeTagged name tag known choose) (.tagged room name tag known choose) := by
  intro s v rest a hs hd
  cases hs with
  | scalar => cases hd
  | @list room _ t u _ vs hh hi hc =>
    cases vs with
    | nil => cases hd
    | cons l vs =>
      rw [decodeTagged] at hd
      split at hd
      · cases hd
      · next d hlabel =>
        unfold Reader.tagged
        simp only [hh, if_neg (Nat.succ_ne_zero room), Nat.add_sub_cancel,
          readTaggedList_of_items hi hlabel]
        rw [closed_ok hc]
        exact decodeBody_ok hd
  | @object room _ t u _ ms hh hm hc =>
    rw [decodeTagged] at hd
    split at hd
    · cases hd
    · cases hd
    · next d others htag =>
      unfold Reader.tagged
      simp only [hh, if_neg (Nat.succ_ne_zero room), Nat.add_sub_cancel,
        readTaggedObject_of_members hm htag]
      rw [closed_ok hc]
      exact decodeBody_ok hd

/-! ### Shapes -/

mutual
/-- **Reading a text is decoding the value that it spells.** Whatever a shape decodes
from a value, it reads from every text that spells the value. -/
theorem Shape.agrees : {α : Type} → (s : Shape α) → (room : Nat) →
    Agrees room s.decode (s.read room)
  | _, .scalar k, room => by
    rw [Shape.decode, Shape.read]
    exact agrees_scalar room k
  | _, .optional s, room => by
    rw [Shape.decode, Shape.read]
    exact (s.agrees room).optional
  | _, .list s, room => by
    rw [Shape.decode, Shape.read]
    exact (s.agrees (room - 1)).list
  | _, .record r, room => by
    rw [Shape.decode, Shape.read]
    exact r.agrees room
  | _, .tagged name tag variants view, room => by
    rw [Shape.decode, Shape.read]
    exact (agrees_tagged room name tag variants.labels variants.choose).map view.whole

theorem RecordShape.agrees : {α : Type} → (r : RecordShape α) → (room : Nat) →
    Agrees room r.decode (r.read room)
  | _, .mk name fields view, room => by
    rw [RecordShape.decode, RecordShape.read]
    exact (Agrees.record name (fields.agrees (room - 1))).map view.whole

theorem Fields.agrees : {ts : List Type} → (f : Fields ts) → (room : Nat) →
    RowsAgree room f.decode (f.read room)
  | _, .nil, _ => trivial
  | _, .cons _ s rest, room => ⟨rfl, s.agrees room, rest.agrees room⟩
end

end Json
end ModelStubs
