/-
# Decoding what a tree means

A value that was read from a text is decoded to what the tree of the text means to the
shape (`Json.Shape.decodes`). This is shown for each way to build a decoder, like the
agreement of decoders and readers.

Key definitions: `Json.Decodes`, `Json.Row.Rel`.
Key theorems: `Json.Decodes.record`, `Json.decodes_tagged`, `Json.Shape.decodes`.
-/
import ModelStubs.Proofs.Json.Meanings

namespace ModelStubs
namespace Json

variable {α β : Type}

/-- The decoder makes of a value what the tree that means the value stands for. -/
def Decodes (room : Nat) (d : Decoder α) (M : Meaning α) : Prop :=
  ∀ {t : Tree} {v : Value} {a : α}, t.Means room v → (d v = .ok a ↔ M t a)

/-! ### Scalars, options and lists -/

theorem means_scalar {room : Nat} {t : Tree} {v : Scalar} (h : t.Means room (.scalar v)) :
    ∃ w, t = .scalar w ∧ head w = .ok (.scalar v []) := by
  cases t with
  | scalar w =>
    rw [Tree.Means] at h
    exact ⟨w, rfl, h⟩
  | list => cases room <;> exact h.elim
  | object => cases room <;> exact h.elim

theorem means_list {room : Nat} {t : Tree} {vs : List Value} (h : t.Means room (.list vs)) :
    ∃ less ts, room = less + 1 ∧ t = .list ts ∧ List.Forall₂ (Tree.Means less) ts vs := by
  cases room with
  | zero => cases t <;> exact h.elim
  | succ less =>
    cases t with
    | scalar => exact h.elim
    | list ts => exact ⟨less, ts, rfl, rfl, h⟩
    | object => exact h.elim

theorem means_object {room : Nat} {t : Tree} {xs : List (String × Value)}
    (h : t.Means room (.object xs)) :
    ∃ less ms, room = less + 1 ∧ t = .object ms ∧
      List.Forall₂ (Entails (Tree.Means less)) ms xs := by
  cases room with
  | zero => cases t <;> exact h.elim
  | succ less =>
    cases t with
    | scalar => exact h.elim
    | list => exact h.elim
    | object ms => exact ⟨less, ms, rfl, rfl, h⟩

theorem decodes_scalar (room : Nat) (k : ScalarShape α) :
    Decodes room k.decode (.scalar k) := by
  intro t v a hm
  cases v with
  | scalar v =>
    obtain ⟨w, rfl, hw⟩ := means_scalar hm
    constructor
    · intro h
      exact ⟨w, v, rfl, hw, h⟩
    · rintro ⟨_, v', he, hw', h⟩
      cases he
      cases hw.symm.trans hw'
      exact h
  | list =>
    obtain ⟨_, _, -, rfl, -⟩ := means_list hm
    constructor
    · nofun
    · rintro ⟨_, _, he, -⟩
      cases he
  | object =>
    obtain ⟨_, _, -, rfl, -⟩ := means_object hm
    constructor
    · nofun
    · rintro ⟨_, _, he, -⟩
      cases he

theorem Decodes.map {room : Nat} {d : Decoder α} {M : Meaning α} (h : Decodes room d M)
    (f : α → β) : Decodes room (d.map f) (M.map f) := by
  intro t v b hm
  rw [decode_map_eq_ok]
  exact exists_congr fun a => and_congr_left' (h hm)

/-- Only null means null. -/
theorem isNull_iff {room : Nat} {t : Tree} {v : Value} (h : t.Means room v) :
    t.IsNull ↔ v = .null := by
  constructor
  · rintro ⟨w, rfl, hw⟩
    cases v with
    | scalar v =>
      rw [Tree.Means] at h
      cases hw.symm.trans h
      rfl
    | list => cases room <;> exact h.elim
    | object => cases room <;> exact h.elim
  · rintro rfl
    exact means_scalar h

theorem Decodes.optional {room : Nat} {d : Decoder α} {M : Meaning α} (h : Decodes room d M) :
    Decodes room d.optional M.optional := by
  intro t v a hm
  by_cases hv : v = .null
  · have hnull := (isNull_iff hm).mpr hv
    subst hv
    constructor
    · intro ha
      exact .inl ⟨hnull, (Except.ok.inj ha).symm⟩
    · rintro (⟨-, rfl⟩ | ⟨hnot, -⟩)
      · rfl
      · exact absurd hnull hnot
  · have hnull : ¬ t.IsNull := fun hn => hv ((isNull_iff hm).mp hn)
    rw [decode_optional_of_ne hv, decode_map_eq_ok]
    constructor
    · rintro ⟨b, hb, rfl⟩
      exact .inr ⟨hnull, b, (h hm).mp hb, rfl⟩
    · rintro (⟨hn, -⟩ | ⟨-, b, hb, rfl⟩)
      · exact absurd hn hnull
      · exact ⟨b, (h hm).mpr hb, rfl⟩

theorem Decodes.all {room : Nat} {d : Decoder α} {M : Meaning α} (h : Decodes room d M)
    {ts : List Tree} {vs : List Value} (hm : List.Forall₂ (Tree.Means room) ts vs)
    {as : List α} : decodeAll d vs = .ok as ↔ List.Forall₂ M ts as := by
  induction hm generalizing as with
  | nil =>
    rw [List.forall₂_nil_left_iff]
    constructor
    · intro ha
      exact (Except.ok.inj ha).symm
    · rintro rfl
      rfl
  | cons hv _ ih =>
    rw [decodeAll_cons, List.forall₂_cons_left_iff]
    constructor
    · rintro ⟨b, bs, hb, hbs, rfl⟩
      exact ⟨b, bs, (h hv).mp hb, ih.mp hbs, rfl⟩
    · rintro ⟨b, bs, hb, hbs, rfl⟩
      exact ⟨b, bs, (h hv).mpr hb, ih.mpr hbs, rfl⟩

theorem Decodes.list {room : Nat} {d : Decoder α} {M : Meaning α} (h : Decodes (room - 1) d M) :
    Decodes room d.list (.list room M) := by
  intro t v as hm
  cases v with
  | scalar =>
    obtain ⟨_, rfl, -⟩ := means_scalar hm
    constructor
    · nofun
    · rintro ⟨-, _, he, -⟩
      cases he
  | list vs =>
    obtain ⟨less, ts, rfl, rfl, hall⟩ := means_list hm
    refine (h.all hall).trans ?_
    constructor
    · intro ha
      exact ⟨Nat.succ_ne_zero less, ts, rfl, ha⟩
    · rintro ⟨-, _, he, ha⟩
      cases he
      exact ha
  | object =>
    obtain ⟨_, _, -, rfl, -⟩ := means_object hm
    constructor
    · nofun
    · rintro ⟨-, _, he, -⟩
      cases he

/-! ### Records -/

/-- The rows have the same fields, and their bodies are related. -/
def Row.Rel {F G : Type → Type} (R : ∀ {α : Type}, F α → G α → Prop) : {ts : List Type} →
    Row (Entry F) ts → Row (Entry G) ts → Prop
  | [], _, _ => True
  | _ :: _, (x, xs), (y, ys) => x.field = y.field ∧ R x.body y.body ∧ Row.Rel R xs ys

/-- The defaults are those of the fields. -/
theorem Row.Rel.complete {F G : Type → Type} {R : ∀ {α : Type}, F α → G α → Prop} :
    {ts : List Type} → {xs : Row (Entry F) ts} → {ys : Row (Entry G) ts} → Row.Rel R xs ys →
    (slots : Row Option ts) → complete xs slots = complete ys slots
  | [], _, _, _, _ => rfl
  | _ :: _, (x, xs), (y, ys), ⟨hf, _, h⟩, (slot, slots) => by
    rw [Json.complete, Json.complete, hf, h.complete slots]

theorem Row.Rel.names {F G : Type → Type} {R : ∀ {α : Type}, F α → G α → Prop} :
    {ts : List Type} → {xs : Row (Entry F) ts} → {ys : Row (Entry G) ts} → Row.Rel R xs ys →
    Row.names xs = Row.names ys
  | [], _, _, _ => rfl
  | _ :: _, (x, xs), (y, ys), ⟨hf, _, h⟩ => by rw [Row.names, Row.names, hf, h.names]

/-- The rows of decoders and meanings belong together. -/
abbrev RowDecodes (room : Nat) {ts : List Type} (ds : Row (Entry Decoder) ts)
    (row : Row (Entry Meaning) ts) : Prop :=
  Row.Rel (Decodes room) ds row

theorem decodeField_of_not_mem : {ts : List Type} → {ds : Row (Entry Decoder) ts} →
    {x : Row Option ts} → {k : String} → {v : Value} → k ∉ Row.names ds →
    decodeField ds x k v = .ok none
  | [], _, _, _, _, _ => rfl
  | _ :: _, (d, ds), (slot, slots), k, v, h => by
    obtain ⟨hk, hrest⟩ := not_or.mp (mt List.mem_cons.mpr h)
    rw [decodeField, if_neg hk, decodeField_of_not_mem hrest]

/-- The value of a field is decoded by one step on the row. -/
theorem RowDecodes.decodeField_iff {room : Nat} : {ts : List Type} →
    {ds : Row (Entry Decoder) ts} → {row : Row (Entry Meaning) ts} → RowDecodes room ds row →
    (Row.names row).Nodup → {x : Row Option ts} → {z : Option (Row Option ts)} → {k : String} →
    {t : Tree} → {v : Value} → t.Means room v → k ∈ Row.names row →
    (decodeField ds x k v = .ok z ↔ ∃ y, z = some y ∧ rowStep row x k t y)
  | [], _, _, _, _, _, _, _, _, _, _, h => by cases h
  | α :: ts, (d, ds), (e, es), ⟨hf, hd, h⟩, hnodup, (slot, slots), z, k, t, v, hm, hmem => by
    obtain ⟨hname, hrest⟩ := List.nodup_cons.mp hnodup
    rw [decodeField, hf]
    by_cases hk : k = e.field.name
    · subst hk
      rw [if_pos rfl]
      cases slot with
      | some a =>
        constructor
        · rintro ⟨⟩
        · rintro ⟨⟨slot', slots'⟩, -, hy⟩
          cases ((rowStep_self hname).mp hy).1.1
      | none =>
        rw [Option.isSome_none, if_neg Bool.false_ne_true]
        constructor
        · intro hz
          split at hz
          · cases hz
          · next a ha =>
            cases hz
            exact ⟨(some a, slots), rfl,
              (rowStep_self hname).mpr ⟨⟨rfl, a, (hd hm).mp ha, rfl⟩, rfl⟩⟩
        · rintro ⟨⟨slot', slots'⟩, rfl, hy⟩
          obtain ⟨⟨-, a, ha, rfl⟩, rfl⟩ := (rowStep_self hname).mp hy
          rw [(hd hm).mpr ha]
    · have hmem : k ∈ Row.names es := (List.mem_cons.mp hmem).resolve_left hk
      have hiff : ∀ {z}, decodeField ds slots k v = .ok z ↔
          ∃ y, z = some y ∧ rowStep es slots k t y :=
        RowDecodes.decodeField_iff h hrest hm hmem
      rw [if_neg hk]
      constructor
      · intro hz
        split at hz
        · cases hz
        · next hnone =>
          obtain ⟨_, he, -⟩ := hiff.mp hnone
          cases he
        · next y hy =>
          cases hz
          obtain ⟨_, he, hstep⟩ := hiff.mp hy
          cases he
          exact ⟨(slot, y), rfl, (rowStep_of_ne hk).mpr ⟨rfl, hstep⟩⟩
      · rintro ⟨⟨slot', slots'⟩, rfl, hy⟩
        obtain ⟨rfl, hslots⟩ := (rowStep_of_ne hk).mp hy
        rw [hiff.mpr ⟨slots', rfl, hslots⟩]

/-- The entries of an object are decoded step by step. -/
theorem RowDecodes.members_iff {room : Nat} {ts : List Type} {ds : Row (Entry Decoder) ts}
    {row : Row (Entry Meaning) ts} (h : RowDecodes room ds row)
    (hnodup : (Row.names row).Nodup) {ms : List (List Char × Tree)}
    {xs : List (String × Value)} (hm : List.Forall₂ (Entails (Tree.Means room)) ms xs)
    {x y : Row Option ts} : decodeMembers ds x xs = .ok y ↔ Runs (rowStep row) x ms y := by
  induction hm generalizing x with
  | nil =>
    constructor
    · intro he
      exact (Except.ok.inj he).symm
    · rintro rfl
      rfl
  | @cons m kv ms xs hmv _ ih =>
    obtain ⟨k, v⟩ := kv
    obtain ⟨hk, hv⟩ := hmv
    rw [runs_cons_iff hk, decodeMembers]
    by_cases hmem : k ∈ Row.names row
    · have hfield : ∀ {z}, decodeField ds x k v = .ok z ↔
          ∃ y, z = some y ∧ rowStep row x k m.2 y := h.decodeField_iff hnodup hv hmem
      constructor
      · intro he
        split at he
        · cases he
        · next hnone =>
          obtain ⟨_, hz, -⟩ := hfield.mp hnone
          cases hz
        · next z hz =>
          obtain ⟨_, hz', hstep⟩ := hfield.mp hz
          cases hz'
          exact ⟨z, hstep, ih.mp he⟩
      · rintro ⟨z, hstep, hrest⟩
        rw [hfield.mpr ⟨z, rfl, hstep⟩]
        exact ih.mpr hrest
    · rw [decodeField_of_not_mem (h.names ▸ hmem)]
      constructor
      · intro he
        exact ⟨x, (rowStep_of_not_mem hmem).mpr rfl, ih.mp he⟩
      · rintro ⟨z, hstep, hrest⟩
        rw [(rowStep_of_not_mem hmem).mp hstep] at hrest
        exact ih.mpr hrest

/-- The entries of a list are decoded as the fields in their order. -/
theorem RowDecodes.fields_iff {room : Nat} (name : String) (total : Nat) : {ts : List Type} →
    {ds : Row (Entry Decoder) ts} → {row : Row (Entry Meaning) ts} → RowDecodes room ds row →
    {index : Nat} → {trees : List Tree} → {vs : List Value} →
    List.Forall₂ (Tree.Means room) trees vs → {as : Tuple ts} →
    (decodeFields name total ds index vs = .ok (as, []) ↔ InOrder row trees as)
  | [], _, _, _, _, trees, vs, hm, as => by
    cases hm with
    | nil => exact ⟨fun _ => rfl, fun _ => rfl⟩
    | cons => exact ⟨nofun, nofun⟩
  | _ :: _, (d, ds), (e, es), ⟨hf, hd, h⟩, index, [], [], .nil, (a, as) => by
    refine decodeFields_absent.trans ?_
    constructor
    · rintro ⟨_, _, ha, has, he⟩
      cases he
      exact ⟨hf ▸ ha, (RowDecodes.fields_iff name total h .nil).mp has⟩
    · rintro ⟨ha, has⟩
      exact ⟨a, as, hf ▸ ha, (RowDecodes.fields_iff name total h .nil).mpr has, rfl⟩
  | _ :: _, (d, ds), (e, es), ⟨hf, hd, h⟩, index, t :: trees, v :: vs, .cons hv hm, (a, as) => by
    refine decodeFields_present.trans ?_
    constructor
    · rintro ⟨_, _, ha, has, he⟩
      cases he
      exact ⟨(hd hv).mp ha, (RowDecodes.fields_iff name total h hm).mp has⟩
    · rintro ⟨ha, has⟩
      exact ⟨a, as, (hd hv).mpr ha, (RowDecodes.fields_iff name total h hm).mpr has, rfl⟩

theorem decodeRecord_list_iff {name : String} {ts : List Type} {ds : Row (Entry Decoder) ts}
    {vs : List Value} {as : Tuple ts} : decodeRecord name ds (.list vs) = .ok as ↔
      decodeFields name ts.length ds 0 vs = .ok (as, []) := by
  rw [decodeRecord]
  constructor
  · intro h
    split at h
    · cases h
    · next hd => cases h; exact hd
    · cases h
  · intro h
    rw [h]

theorem decodeRecord_object_iff {name : String} {ts : List Type} {ds : Row (Entry Decoder) ts}
    {xs : List (String × Value)} {as : Tuple ts} : decodeRecord name ds (.object xs) = .ok as ↔
      ∃ slots, decodeMembers ds Row.none xs = .ok slots ∧ complete ds slots = .ok as := by
  constructor
  · intro h
    rw [decodeRecord] at h
    split at h
    · cases h
    · next slots hs => exact ⟨slots, hs, h⟩
  · rintro ⟨slots, hs, has⟩
    exact decodeRecord_object hs has

/-- Records are decoded as their trees say if their fields are. -/
theorem Decodes.record {room : Nat} (name : String) {ts : List Type}
    {ds : Row (Entry Decoder) ts} {row : Row (Entry Meaning) ts}
    (h : RowDecodes (room - 1) ds row) (hnodup : (Row.names row).Nodup) :
    Decodes room (decodeRecord name ds) (.record room row) := by
  intro t v as hm
  cases v with
  | scalar =>
    obtain ⟨_, rfl, -⟩ := means_scalar hm
    constructor
    · nofun
    · rintro ⟨-, ⟨_, he, -⟩ | ⟨_, _, he, -⟩⟩ <;> cases he
  | list vs =>
    obtain ⟨less, trees, rfl, rfl, hall⟩ := means_list hm
    rw [decodeRecord_list_iff, h.fields_iff name _ hall]
    constructor
    · intro has
      exact ⟨Nat.succ_ne_zero less, .inl ⟨trees, rfl, has⟩⟩
    · rintro ⟨-, ⟨_, he, has⟩ | ⟨_, _, he, -⟩⟩
      · cases he
        exact has
      · cases he
  | object xs =>
    obtain ⟨less, ms, rfl, rfl, hall⟩ := means_object hm
    rw [decodeRecord_object_iff]
    constructor
    · rintro ⟨slots, hs, has⟩
      obtain ⟨hread, hslots⟩ := runs_row_iff.mp ((h.members_iff hnodup hall).mp hs)
      exact ⟨Nat.succ_ne_zero less,
        .inr ⟨ms, slots, rfl, hread, hslots, (h.complete slots).symm.trans has⟩⟩
    · rintro ⟨-, ⟨_, he, -⟩ | ⟨_, slots, he, hread, hslots, has⟩⟩
      · cases he
      · cases he
        exact ⟨slots, (h.members_iff hnodup hall).mpr (runs_row_iff.mpr ⟨hread, hslots⟩),
          (h.complete slots).trans has⟩

/-! ### Tagged choices -/

/-- One decoder and one meaning under each label. -/
def Chooses (room : Nat) (ds : String → Option (Decoder α)) (Ms : String → Option (Meaning α)) :
    Prop :=
  ∀ l, Option.Rel (Decodes room) (ds l) (Ms l)

theorem Chooses.of_decoder {room : Nat} {ds : String → Option (Decoder α)}
    {Ms : String → Option (Meaning α)} (h : Chooses room ds Ms) {t : Tree} {d : Decoder α}
    (hd : Meaning.label ds t d) : ∃ M, Meaning.label Ms t M ∧ Decodes room d M := by
  obtain ⟨l, hl, hchoose⟩ := hd
  have hrel := h l
  rw [hchoose] at hrel
  generalize hM : Ms l = x at hrel
  cases hrel with
  | some hdecodes => exact ⟨_, ⟨l, hl, hM⟩, hdecodes⟩

theorem Chooses.of_meaning {room : Nat} {ds : String → Option (Decoder α)}
    {Ms : String → Option (Meaning α)} (h : Chooses room ds Ms) {t : Tree} {M : Meaning α}
    (hM : Meaning.label Ms t M) : ∃ d, Meaning.label ds t d ∧ Decodes room d M := by
  obtain ⟨l, hl, hchoose⟩ := hM
  have hrel := h l
  rw [hchoose] at hrel
  generalize hd : ds l = x at hrel
  cases hrel with
  | some hdecodes => exact ⟨_, ⟨l, hl, hd⟩, hdecodes⟩

/-- What the record under the label is decoded to is what its tree means. -/
theorem Chooses.decode_iff {room : Nat} {ds : String → Option (Decoder α)}
    {Ms : String → Option (Meaning α)} (h : Chooses room ds Ms) {l body : Tree} {v : Value}
    {a : α} (hm : body.Means room v) : (∃ d, Meaning.label ds l d ∧ d v = .ok a) ↔
      ∃ M, Meaning.label Ms l M ∧ M body a := by
  constructor
  · rintro ⟨d, hd, ha⟩
    obtain ⟨M, hM, hdecodes⟩ := h.of_decoder hd
    exact ⟨M, hM, (hdecodes hm).mp ha⟩
  · rintro ⟨M, hM, ha⟩
    obtain ⟨d, hd, hdecodes⟩ := h.of_meaning hM
    exact ⟨d, hd, (hdecodes hm).mpr ha⟩

theorem decodeLabel_iff {room : Nat} {known : List String} {choose : String → Option (Decoder α)}
    {t : Tree} {v : Value} (hm : t.Means room v) {d : Decoder α} :
    decodeLabel known choose v = .ok d ↔ Meaning.label choose t d := by
  have hlabel : ∀ {l}, ScalarShape.label.decode v = .ok l ↔ Meaning.scalar .label t l :=
    decodes_scalar room .label hm
  unfold decodeLabel
  constructor
  · intro h
    split at h
    · cases h
    · next l hl =>
      split at h
      · cases h
      · next hd => cases h; exact ⟨l, hlabel.mp hl, hd⟩
  · rintro ⟨l, hl, hd⟩
    rw [hlabel.mpr hl]
    simp only [hd]

/-- The tag fills a slot, and the other entries are kept. -/
theorem decodeTag_iff {room : Nat} {tag : String} {known : List String}
    {choose : String → Option (Decoder α)} {ms : List (List Char × Tree)}
    {xs : List (String × Value)} (hm : List.Forall₂ (Entails (Tree.Means room)) ms xs)
    {found r : Option (Decoder α)} {ys : List (String × Value)} :
    decodeTag tag known choose found xs = .ok (r, ys) ↔
      Runs (slotStep tag (Meaning.label choose)) found ms r ∧
        ys = xs.filter fun x => !(x.1 == tag) := by
  induction hm generalizing found ys with
  | nil =>
    rw [decodeTag]
    constructor
    · intro h
      cases h
      exact ⟨rfl, rfl⟩
    · rintro ⟨rfl, rfl⟩
      rfl
  | @cons m kv ms xs hmv _ ih =>
    obtain ⟨k, v⟩ := kv
    obtain ⟨hk, hv⟩ := hmv
    rw [runs_cons_iff hk, decodeTag]
    by_cases htag : k = tag
    · subst htag
      have hdrop : ((k, v) :: xs).filter (fun x => !(x.1 == k)) =
          xs.filter fun x => !(x.1 == k) := by
        rw [List.filter_cons, beq_self_eq_true]
        rfl
      rw [hdrop, if_pos rfl]
      simp only [slotStep_self]
      constructor
      · intro h
        split at h
        · cases h
        · next hnone =>
          split at h
          · cases h
          · next d hd =>
            obtain ⟨hrest, hys⟩ := ih.mp h
            have hempty : found = none := Option.not_isSome_iff_eq_none.mp hnone
            exact ⟨⟨some d, ⟨hempty, d, (decodeLabel_iff hv).mp hd, rfl⟩, hrest⟩, hys⟩
      · rintro ⟨⟨z, ⟨rfl, d, hd, rfl⟩, hrest⟩, hys⟩
        rw [Option.isSome_none, if_neg Bool.false_ne_true, (decodeLabel_iff hv).mpr hd]
        exact ih.mpr ⟨hrest, hys⟩
    · have hkeep : ((k, v) :: xs).filter (fun x => !(x.1 == tag)) =
          (k, v) :: xs.filter fun x => !(x.1 == tag) := by
        rw [List.filter_cons, beq_false_of_ne htag]
        rfl
      rw [hkeep, if_neg htag]
      simp only [slotStep_of_ne htag, exists_eq_left]
      constructor
      · intro h
        split at h
        · cases h
        · next r' zs hz =>
          cases h
          obtain ⟨hrest, rfl⟩ := ih.mp hz
          exact ⟨hrest, rfl⟩
      · rintro ⟨hrest, rfl⟩
        rw [ih.mpr ⟨hrest, rfl⟩]

/-- The members that are not the tag mean the entries that are not. -/
theorem entails_others {M : Meaning β} (tag : String) {ms : List (List Char × Tree)}
    {xs : List (String × β)} (h : List.Forall₂ (Entails M) ms xs) :
    List.Forall₂ (Entails M) (Meaning.others tag ms) (xs.filter fun x => !(x.1 == tag)) := by
  refine List.rel_filter (fun m x hm => ?_) h
  show (!(keyName m.1).any (· == tag)) = true ↔ (!(x.1 == tag)) = true
  rw [hm.1, Option.any_some]

theorem decodeTagged_object_iff {name tag : String} {known : List String}
    {choose : String → Option (Decoder α)} {xs : List (String × Value)} {a : α} :
    decodeTagged name tag known choose (.object xs) = .ok a ↔
      ∃ d ys, decodeTag tag known choose none xs = .ok (some d, ys) ∧ d (.object ys) = .ok a := by
  rw [decodeTagged]
  constructor
  · intro h
    split at h
    · cases h
    · cases h
    · next d ys hd => exact ⟨d, ys, hd, h⟩
  · rintro ⟨d, ys, hd, h⟩
    rw [hd]
    exact h

theorem decodeTagged_list_iff {name tag : String} {known : List String}
    {choose : String → Option (Decoder α)} {v : Value} {vs : List Value} {a : α} :
    decodeTagged name tag known choose (.list (v :: vs)) = .ok a ↔
      ∃ d, decodeLabel known choose v = .ok d ∧ d (.list vs) = .ok a := by
  rw [decodeTagged]
  constructor
  · intro h
    split at h
    · cases h
    · next d hd => exact ⟨d, hd, h⟩
  · rintro ⟨d, hd, h⟩
    rw [hd]
    exact h

/-- Tagged choices are decoded as their trees say if the records under the labels are. -/
theorem decodes_tagged {room : Nat} (name tag : String) (known : List String)
    {ds : String → Option (Decoder α)} {Ms : String → Option (Meaning α)}
    (h : Chooses room ds Ms) :
    Decodes room (decodeTagged name tag known ds) (.tagged room tag Ms) := by
  intro t v a hm
  cases v with
  | scalar =>
    obtain ⟨_, rfl, -⟩ := means_scalar hm
    constructor
    · nofun
    · rintro ⟨-, ⟨_, _, _, he, -⟩ | ⟨_, _, _, he, -⟩⟩ <;> cases he
  | list vs =>
    obtain ⟨less, trees, rfl, rfl, hall⟩ := means_list hm
    cases hall with
    | nil =>
      constructor
      · nofun
      · rintro ⟨-, ⟨_, _, _, he, -⟩ | ⟨_, _, _, he, -⟩⟩ <;> cases he
    | @cons l v trees vs hv hall =>
      have hbody : (Tree.list trees).Means (less + 1) (.list vs) := hall
      simp only [decodeTagged_list_iff, decodeLabel_iff hv, h.decode_iff hbody]
      constructor
      · rintro ⟨M, hM, ha⟩
        exact ⟨Nat.succ_ne_zero less, .inl ⟨l, trees, M, rfl, hM, readable_of_forall₂ hall, ha⟩⟩
      · rintro ⟨-, ⟨_, _, M, he, hM, -, ha⟩ | ⟨_, _, _, he, -⟩⟩
        · cases he
          exact ⟨M, hM, ha⟩
        · cases he
  | object xs =>
    obtain ⟨less, ms, rfl, rfl, hall⟩ := means_object hm
    have hothers := entails_others tag hall
    have hbody : (Tree.object (Meaning.others tag ms)).Means (less + 1)
        (.object (xs.filter fun x => !(x.1 == tag))) := hothers
    rw [decodeTagged_object_iff]
    constructor
    · rintro ⟨d, ys, hd, ha⟩
      obtain ⟨hruns, rfl⟩ := (decodeTag_iff hall).mp hd
      obtain ⟨hread, hslot⟩ := runs_slot_iff.mp hruns
      obtain ⟨l, hl, hlabel⟩ := slot_some hslot
      obtain ⟨M, hM, ha⟩ := (h.decode_iff hbody).mp ⟨d, hlabel, ha⟩
      exact ⟨Nat.succ_ne_zero less, .inr ⟨ms, l, M, rfl, hread, hl, hM,
        readable_of_entails hothers, ha⟩⟩
    · rintro ⟨-, ⟨_, _, _, he, -⟩ | ⟨_, l, M, he, hread, hl, hM, -, ha⟩⟩
      · cases he
      · cases he
        obtain ⟨d, hd, ha⟩ := (h.decode_iff hbody).mpr ⟨M, hM, ha⟩
        refine ⟨d, _, (decodeTag_iff hall).mpr ⟨runs_slot_iff.mpr ⟨hread, ?_⟩, rfl⟩, ha⟩
        rw [hl]
        exact ⟨d, hd, rfl⟩

/-! ### Shapes -/

mutual
/-- **Decoding a value is taking the meaning of its tree.** -/
theorem Shape.decodes (room : Nat) : {α : Type} → {s : Shape α} → s.Lawful →
    Decodes room s.decode (s.means room)
  | _, .scalar k, _ => by
    rw [Shape.decode, Shape.means]
    exact decodes_scalar room k
  | _, .optional s, h => by
    rw [Shape.Lawful] at h
    rw [Shape.decode, Shape.means]
    exact Decodes.optional (Shape.decodes room h.2)
  | _, .list s, h => by
    rw [Shape.Lawful] at h
    rw [Shape.decode, Shape.means]
    exact Decodes.list (Shape.decodes (room - 1) h)
  | _, .record r, h => by
    rw [Shape.Lawful] at h
    rw [Shape.decode, Shape.means]
    exact RecordShape.decodes room h
  | _, .tagged name tag variants view, h => by
    rw [Shape.Lawful] at h
    rw [Shape.decode, Shape.means]
    exact Decodes.map (decodes_tagged name tag variants.labels (Variants.decodes room h.2))
      view.whole

theorem RecordShape.decodes (room : Nat) : {α : Type} → {r : RecordShape α} → r.Lawful →
    Decodes room r.decode (r.means room)
  | _, .mk name fields view, h => by
    rw [RecordShape.Lawful] at h
    rw [RecordShape.decode, RecordShape.means]
    refine Decodes.map (Decodes.record name (Fields.decodes (room - 1) h.2) ?_) view.whole
    rw [names_means]
    exact h.1

theorem Fields.decodes (room : Nat) : {ts : List Type} → {f : Fields ts} → f.Lawful →
    RowDecodes room f.decode (f.means room)
  | _, .nil, _ => trivial
  | _, .cons _ s rest, h => by
    rw [Fields.Lawful] at h
    exact ⟨rfl, Shape.decodes room h.1, Fields.decodes room h.2⟩

theorem Variants.decodes (room : Nat) {tag : String} : {ts : List Type} → {v : Variants ts} →
    v.Lawful tag → Chooses room v.choose (v.means room)
  | _, .nil, _ => fun l => by
    rw [Variants.choose, Variants.means]
    exact .none
  | _, .cons label r rest, h => fun l => by
    rw [Variants.Lawful] at h
    rw [Variants.choose, Variants.means]
    by_cases hl : l = label
    · rw [if_pos hl, if_pos hl]
      exact .some (Decodes.map (RecordShape.decodes room h.1.2) Sum.inl)
    · rw [if_neg hl, if_neg hl]
      have hrest := Variants.decodes room h.2 l
      revert hrest
      generalize rest.choose l = x
      generalize rest.means room l = y
      rintro (hdecodes | _)
      · exact .some (Decodes.map hdecodes Sum.inr)
      · exact .none
end

end Json
end ModelStubs
