/-
# Layouts mean the same

What a tree means to a shape, every other layout of it means too
(`Json.Shape.means_varied`). In a record only the members under the names of the fields
count, and a layout has the same trees there. In a tagged choice the tag is one of the
members that are kept, and all that was put in is readable.

So a text that a shape reads may be written again in any other layout: it is read as the
same value (`Json.Shape.ofText_varied`).

Key definitions: `Json.KeepsMeaning`, `Json.RowKeeps`.
Key theorems: `Json.slots_varied`, `Json.keepsMeaning_record`, `Json.keepsMeaning_tagged`,
`Json.Shape.means_varied`, `Json.Shape.ofText_varied`.
-/
import ModelStubs.Proofs.Json.Layouts

namespace ModelStubs
namespace Json

variable {α β : Type}

/-- What a tree means, its variations mean too. -/
def KeepsMeaning (V : Variation) (M : Meaning α) : Prop :=
  ∀ (t t' : Tree) (a : α), V t t' → M t a → M t' a

theorem keepsMeaning_same (M : Meaning α) : KeepsMeaning .same M := by
  rintro t _ a rfl h
  exact h

theorem KeepsMeaning.map {V : Variation} {M : Meaning α} (h : KeepsMeaning V M) (f : α → β) :
    KeepsMeaning V (M.map f) := by
  rintro t t' b hv ⟨a, ha, hb⟩
  exact ⟨a, h _ _ a hv ha, hb⟩

/-! ### Null and lists -/

/-- The variation leaves scalars alone. -/
def KeepsScalars (V : Variation) : Prop :=
  (∀ w t, V (.scalar w) t → t = .scalar w) ∧ ∀ t w, V t (.scalar w) → t = .scalar w

theorem Shape.keepsScalars (depth : Nat) {α : Type} (s : Shape α) :
    KeepsScalars (s.Varied depth) := by
  cases s with
  | scalar _ =>
    rw [Shape.Varied]
    exact ⟨fun _ _ h => h, fun _ _ h => Eq.symm h⟩
  | optional s =>
    rw [Shape.Varied]
    exact s.keepsScalars depth
  | list s =>
    rw [Shape.Varied]
    refine ⟨fun _ _ h => h, fun t _ h => ?_⟩
    cases t <;> exact Eq.symm h
  | record r =>
    rw [Shape.Varied]
    refine ⟨fun _ _ h => h, fun t _ h => ?_⟩
    cases t <;> exact Eq.symm h
  | tagged _ tag variants _ =>
    rw [Shape.Varied]
    refine ⟨fun _ _ h => h, fun t _ h => ?_⟩
    cases t with
    | scalar _ => exact Eq.symm h
    | list ts => cases ts <;> exact Eq.symm h
    | object _ => exact Eq.symm h

theorem KeepsMeaning.optional {V : Variation} {M : Meaning α} (h : KeepsMeaning V M)
    (hscalars : KeepsScalars V) : KeepsMeaning V M.optional := by
  rintro t t' a hv (⟨⟨w, rfl, hw⟩, ha⟩ | ⟨hnot, b, hb, ha⟩)
  · obtain rfl := hscalars.1 w t' hv
    exact .inl ⟨⟨w, rfl, hw⟩, ha⟩
  · refine .inr ⟨?_, b, h _ _ b hv hb, ha⟩
    rintro ⟨w, rfl, hw⟩
    exact hnot ⟨w, hscalars.2 t w hv, hw⟩

theorem forall₂_varied {V : Variation} {M : Meaning α} (h : KeepsMeaning V M) :
    ∀ {ts ts' : List Tree} {as : List α}, List.Forall₂ V ts ts' → List.Forall₂ M ts as →
      List.Forall₂ M ts' as
  | _, _, _, .nil, hall => hall
  | _, _, _, .cons hu hus, .cons ha has => .cons (h _ _ _ hu ha) (forall₂_varied h hus has)

theorem keepsMeaning_list {room : Nat} {V : Variation} {M : Meaning α} (h : KeepsMeaning V M) :
    KeepsMeaning (.list V) (.list room M) := by
  rintro t t' as hv ⟨hroom, ts, rfl, hall⟩
  match t', hv with
  | .list ts', hv =>
    replace hv : List.Forall₂ V ts ts' := hv
    exact ⟨hroom, ts', rfl, forall₂_varied h hv hall⟩
  | .scalar _, hv => cases hv
  | .object _, hv => cases hv

/-! ### Records -/

/-- The variations belong to the fields of the row, and keep their meanings. -/
def RowKeeps : {ts : List Type} → Variations → Row (Entry Meaning) ts → Prop
  | [], Vs, _ => Vs = []
  | _ :: _, [], _ => False
  | _ :: _, (k, V) :: Vs, (e, es) => k = e.field.name ∧ KeepsMeaning V e.body ∧ RowKeeps Vs es

theorem slot_none {M : Meaning α} {ts : List Tree} (h : Slot M ts none) : ts = [] := by
  match ts, h with
  | [], _ => rfl
  | [_], ⟨_, _, e⟩ => cases e

theorem slot_varied {depth : Nat} {Vs : Variations} {ms ms' : List (List Char × Tree)}
    {k : String} {V : Variation} {M : Meaning α} {slot : Option α}
    (hms : MembersVaried depth Vs ms ms') (hV : Vs.lookup k = some V) (h : KeepsMeaning V M)
    (hslot : Slot M (valuesOf k ms) slot) : Slot M (valuesOf k ms') slot := by
  cases slot with
  | none =>
    rw [hms.valuesOf_nil hV (slot_none hslot)]
    rfl
  | some a =>
    obtain ⟨t, ht, ha⟩ := slot_some hslot
    obtain ⟨t', ht', hv⟩ := hms.valuesOf_single hV ht
    rw [ht']
    exact ⟨a, h _ _ a hv ha, rfl⟩

/-- What the members give for the fields stays the same. -/
theorem slots_varied {depth : Nat} {table : Variations} {ms ms' : List (List Char × Tree)}
    (hms : MembersVaried depth table ms ms') : {ts : List Type} → {Vs : Variations} →
    {row : Row (Entry Meaning) ts} → {slots : Row Option ts} → RowKeeps Vs row →
    (∀ p ∈ Vs, table.lookup p.1 = some p.2) → Slots row ms slots → Slots row ms' slots
  | [], _, _, _, _, _, _ => trivial
  | _ :: _, (k, V) :: Vs, (e, es), (slot, slots), ⟨hk, hV, hrow⟩, hlookup, ⟨hslot, hslots⟩ => by
    obtain ⟨hfirst, hrest⟩ := List.forall_mem_cons.mp hlookup
    exact ⟨slot_varied hms (hk ▸ hfirst) hV hslot, slots_varied hms hrow hrest hslots⟩

theorem inOrder_varied : {ts : List Type} → {Vs : Variations} → {row : Row (Entry Meaning) ts} →
    {as : Tuple ts} → {trees trees' : List Tree} → RowKeeps Vs row →
    EntriesVaried Vs trees trees' → InOrder row trees as → InOrder row trees' as
  | [], _, _, _, _, _, rfl, rfl, h => h
  | _ :: _, _ :: _, (_, _), (_, _), [], _, _, rfl, h => h
  | _ :: _, (_, _) :: _, (_, _), (_, _), _ :: _, _, ⟨_, hV, hrow⟩, ⟨_, _, rfl, hu, hus⟩,
      ⟨ha, has⟩ => ⟨hV _ _ _ hu ha, inOrder_varied hrow hus has⟩

/-- Under distinct names every variation is found. -/
theorem lookup_of_nodup : ∀ {Vs : Variations}, (Vs.map Prod.fst).Nodup →
    ∀ p ∈ Vs, Vs.lookup p.1 = some p.2
  | [], _, _, hp => by cases hp
  | (k, V) :: Vs, h, p, hp => by
    obtain ⟨hk, hVs⟩ := List.nodup_cons.mp h
    rcases List.mem_cons.mp hp with rfl | hp
    · exact List.lookup_cons_self
    · have hmem : p.1 ∈ Vs.map Prod.fst := List.mem_map_of_mem hp
      have hne : p.1 ≠ k := fun e => hk (e ▸ hmem)
      rw [List.lookup_cons, beq_false_of_ne hne]
      exact lookup_of_nodup hVs p hp

theorem keepsMeaning_record {depth room : Nat} {ts : List Type} {Vs : Variations}
    {row : Row (Entry Meaning) ts} (h : RowKeeps Vs row) (hnodup : (Vs.map Prod.fst).Nodup) :
    KeepsMeaning (.record depth Vs) (.record room row) := by
  rintro t t' as hv ⟨hroom, ⟨trees, rfl, has⟩ | ⟨ms, slots, rfl, hread, hslots, has⟩⟩
  · match t', hv with
    | .list trees', hv =>
      exact ⟨hroom, .inl ⟨trees', rfl, inOrder_varied h hv has⟩⟩
    | .scalar _, hv => cases hv
    | .object _, hv => cases hv
  · match t', hv with
    | .object ms', hv =>
      exact ⟨hroom, .inr ⟨ms', slots, rfl, MembersVaried.keysRead hv hread,
        slots_varied hv h (lookup_of_nodup hnodup) hslots, has⟩⟩
    | .scalar _, hv => cases hv
    | .list _, hv => cases hv

/-! ### Members beside the tag -/

theorem mem_valuesOf {k : String} {m : List Char × Tree} {ms : List (List Char × Tree)}
    (hm : m ∈ ms) (hk : keyName m.1 = some k) : m.2 ∈ valuesOf k ms :=
  List.mem_filterMap.mpr ⟨m, hm, if_pos hk⟩

theorem mem_others {tag : String} {m : List Char × Tree} {ms : List (List Char × Tree)}
    (hm : m ∈ ms) (hk : keyName m.1 ≠ some tag) : m ∈ Meaning.others tag ms := by
  refine List.mem_filter.mpr ⟨hm, ?_⟩
  cases hname : keyName m.1 with
  | none => rfl
  | some k =>
    have hne : k ≠ tag := fun e => hk (hname.trans (congrArg some e))
    rw [Option.any_some, beq_false_of_ne hne]
    rfl

/-- If the tag's only tree is a string, all members are readable and not only the others. -/
theorem readable_of_others {room : Nat} {tag name : String} {ms : List (List Char × Tree)}
    {l : Tree} (hl : valuesOf tag ms = [l]) (hname : l.IsText name)
    (h : ∀ m ∈ Meaning.others tag ms, m.2.Readable room) : ∀ m ∈ ms, m.2.Readable room := by
  intro m hm
  by_cases hk : keyName m.1 = some tag
  · have hmem := mem_valuesOf hm hk
    rw [hl, List.mem_singleton] at hmem
    obtain ⟨w, hw, hhead⟩ := hname
    rw [hmem, hw]
    exact readable_scalar_iff.mpr ⟨_, hhead⟩
  · exact h m (mem_others hm hk)

/-- Under another name there is the same without the tag. -/
theorem valuesOf_others {tag k : String} (h : k ≠ tag) :
    ∀ ms : List (List Char × Tree), valuesOf k (Meaning.others tag ms) = valuesOf k ms
  | [] => rfl
  | m :: ms => by
    have hrest := valuesOf_others h ms
    unfold Meaning.others unskipped at hrest ⊢
    rw [List.filter_cons]
    by_cases hk : keyName m.1 = some k
    · have hkeep : (!(keyName m.1).any (· == tag)) = true := by
        rw [hk, Option.any_some, beq_false_of_ne h]
        rfl
      rw [if_pos hkeep, valuesOf_cons_of_eq hk, valuesOf_cons_of_eq hk, hrest]
    · rw [valuesOf_cons_of_ne hk]
      split
      · rw [valuesOf_cons_of_ne hk, hrest]
      · exact hrest

theorem slots_others {tag : String} {ms : List (List Char × Tree)} : {ts : List Type} →
    {row : Row (Entry Meaning) ts} → {slots : Row Option ts} → tag ∉ Row.names row →
    (Slots row (Meaning.others tag ms) slots ↔ Slots row ms slots)
  | [], _, _, _ => Iff.rfl
  | _ :: _, (e, es), (slot, slots), h => by
    obtain ⟨htag, hrest⟩ := not_or.mp (mt List.mem_cons.mpr h)
    refine and_congr ?_ (slots_others hrest)
    rw [valuesOf_others (Ne.symm htag)]

/-- A record that has no field named like the tag means the same without it. -/
theorem RecordShape.means_others {room : Nat} {tag : String} {r : RecordShape α}
    (h : tag ∉ r.names) {ms : List (List Char × Tree)} (hread : KeysRead ms) {a : α} :
    r.means room (.object (Meaning.others tag ms)) a ↔ r.means room (.object ms) a := by
  cases r with
  | mk name fields view =>
    rw [RecordShape.names, ← names_means (room - 1)] at h
    rw [RecordShape.means]
    refine exists_congr fun as => and_congr_left' (and_congr_right' ?_)
    constructor
    · rintro (⟨_, he, -⟩ | ⟨_, slots, he, -, hslots, has⟩)
      · cases he
      · cases he
        exact .inr ⟨ms, slots, rfl, hread, (slots_others h).mp hslots, has⟩
    · rintro (⟨_, he, -⟩ | ⟨_, slots, he, -, hslots, has⟩)
      · cases he
      · cases he
        exact .inr ⟨_, slots, rfl, keysRead_others hread, (slots_others h).mpr hslots, has⟩

/-! ### Tagged choices -/

/-- The record under a label means the same in other layouts, the tag beside it or not. -/
def LabelKeeps (depth : Nat) (tag : String) (Vs : Variations) (M : Meaning α) : Prop :=
  (∀ {ts ts' : List Tree} {a : α}, EntriesVaried Vs ts ts' → M (.list ts) a → M (.list ts') a) ∧
    ∀ {ms ms' : List (List Char × Tree)} {a : α}, KeysRead ms →
      MembersVaried depth ((tag, .same) :: Vs) ms ms' →
      M (.object (Meaning.others tag ms)) a → M (.object (Meaning.others tag ms')) a

theorem LabelKeeps.map {depth : Nat} {tag : String} {Vs : Variations} {M : Meaning α}
    (h : LabelKeeps depth tag Vs M) (f : α → β) : LabelKeeps depth tag Vs (M.map f) := by
  constructor
  · rintro ts ts' b hts ⟨a, ha, hb⟩
    exact ⟨a, h.1 hts ha, hb⟩
  · rintro ms ms' b hread hms ⟨a, ha, hb⟩
    exact ⟨a, h.2 hread hms ha, hb⟩

theorem keepsMeaning_tagged {depth room : Nat} {tag : String}
    {Ms : String → Option (Meaning α)} {choose : String → Option Variations}
    (hreadable : ChoosesReadable depth room choose)
    (h : ∀ l Vs M, choose l = some Vs → Ms l = some M → LabelKeeps depth tag Vs M) :
    KeepsMeaning (.tagged depth tag choose) (.tagged room tag Ms) := by
  rintro t t' a hv ⟨hroom, ⟨l, ts, M, rfl, hM, hall, ha⟩ |
    ⟨ms, l, M, rfl, hread, hl, hM, hall, ha⟩⟩
  · obtain ⟨name, hname, hMs⟩ := label_iff.mp hM
    match t', hv with
    | .list (l' :: ts'), ⟨hl, name', Vs, hname', hchoose, hts⟩ =>
      subst hl
      obtain rfl := hname.unique hname'
      exact ⟨hroom, .inl ⟨l', ts', M, rfl, hM, hts.readable (hreadable _ _ hchoose).1 hall,
        (h _ _ _ hchoose hMs).1 hts ha⟩⟩
    | .list [], hv => cases hv
    | .scalar _, hv => cases hv
    | .object _, hv => cases hv
  · obtain ⟨name, hname, hMs⟩ := label_iff.mp hM
    match t', hv with
    | .object ms', ⟨l', name', Vs, hl', hname', hchoose, hms⟩ =>
      -- the tag is there once, so that it is the one whose record is varied
      rw [hl, List.mem_singleton] at hl'
      subst hl'
      obtain rfl := hname.unique hname'
      have htag : ((tag, Variation.same) :: Vs).lookup tag = some .same := List.lookup_cons_self
      obtain ⟨_, hsingle, rfl⟩ := hms.valuesOf_single htag hl
      obtain ⟨hVs, hdepth⟩ := hreadable _ _ hchoose
      have hevery' := hms.readable (forall_mem_tag hVs) hdepth hread
        (readable_of_others hl hname hall)
      exact ⟨hroom, .inr ⟨ms', _, M, rfl, hms.keysRead hread, hsingle, hM,
        fun m hm => hevery' m (List.mem_of_mem_filter hm),
        (h _ _ _ hchoose hMs).2 hread hms ha⟩⟩
    | .scalar _, hv => cases hv
    | .list _, hv => cases hv

/-! ### Shapes -/

theorem names_variations (depth : Nat) {ts : List Type} (f : Fields ts) :
    (f.variations depth).map Prod.fst = f.names := by
  cases f with
  | nil => rfl
  | cons field s rest =>
    rw [Fields.variations, Fields.names, List.map_cons, names_variations depth rest]

mutual
/-- **Layouts mean the same.** -/
theorem Shape.means_varied (depth : Nat) : {α : Type} → {s : Shape α} → s.Lawful →
    {room : Nat} → s.height + depth ≤ room → KeepsMeaning (s.Varied depth) (s.means room)
  | _, .scalar _, _, room, _ => by
    rw [Shape.Varied, Shape.means]
    exact keepsMeaning_same _
  | _, .optional s, hlawful, room, h => by
    rw [Shape.Lawful] at hlawful
    rw [Shape.height] at h
    rw [Shape.Varied, Shape.means]
    exact KeepsMeaning.optional (Shape.means_varied depth hlawful.2 h) (s.keepsScalars depth)
  | _, .list s, hlawful, room, h => by
    rw [Shape.Lawful] at hlawful
    rw [Shape.height] at h
    rw [Shape.Varied, Shape.means]
    exact keepsMeaning_list (Shape.means_varied depth hlawful (by omega))
  | _, .record (.mk name fields view), hlawful, room, h => by
    rw [Shape.Lawful, RecordShape.Lawful] at hlawful
    rw [Shape.height, RecordShape.height] at h
    rw [Shape.Varied, RecordShape.variations, Shape.means, RecordShape.means]
    refine KeepsMeaning.map (keepsMeaning_record ?_ ?_) view.whole
    · exact Fields.means_varied depth hlawful.2 (by omega)
    · rw [names_variations]
      exact hlawful.1
  | _, .tagged name tag variants view, hlawful, room, h => by
    rw [Shape.Lawful] at hlawful
    rw [Shape.height] at h
    rw [Shape.Varied, Shape.means]
    exact KeepsMeaning.map (keepsMeaning_tagged (variants.readable_varied depth h)
      (Variants.means_varied depth hlawful.2 h)) view.whole

theorem Fields.means_varied (depth : Nat) : {ts : List Type} → {f : Fields ts} → f.Lawful →
    {room : Nat} → f.height + depth ≤ room → RowKeeps (f.variations depth) (f.means room)
  | _, .nil, _, _, _ => by
    rw [Fields.variations]
    rfl
  | _, .cons field s rest, hlawful, room, h => by
    rw [Fields.Lawful] at hlawful
    rw [Fields.height] at h
    rw [Fields.variations, Fields.means]
    exact ⟨rfl, Shape.means_varied depth hlawful.1 (by omega),
      Fields.means_varied depth hlawful.2 (by omega)⟩

theorem RecordShape.labelKeeps (depth : Nat) {tag : String} : {α : Type} →
    {r : RecordShape α} → tag ∉ r.names → r.Lawful → {room : Nat} → r.height + depth ≤ room →
    LabelKeeps depth tag (r.variations depth) (r.means room)
  | _, .mk name fields view, htag, hlawful, room, h => by
    rw [RecordShape.Lawful] at hlawful
    rw [RecordShape.height] at h
    have hrow : RowKeeps (fields.variations depth) (fields.means (room - 1)) :=
      Fields.means_varied depth hlawful.2 (by omega)
    have hnodup : ((fields.variations depth).map Prod.fst).Nodup := by
      rw [names_variations]
      exact hlawful.1
    constructor
    · intro ts ts' a hts ha
      rw [RecordShape.variations] at hts
      rw [RecordShape.means] at ha ⊢
      have hlist : Variation.record depth (fields.variations depth) (.list ts) (.list ts') := hts
      exact (keepsMeaning_record hrow hnodup).map view.whole _ _ a hlist ha
    · intro ms ms' a hread hms ha
      rw [RecordShape.means_others htag hread] at ha
      rw [RecordShape.means_others htag (hms.keysRead hread)]
      rw [RecordShape.means] at ha ⊢
      rw [RecordShape.variations] at hms
      obtain ⟨as, ⟨hroom, ⟨_, he, -⟩ | ⟨_, slots, he, -, hslots, has⟩⟩, hwhole⟩ := ha
      · cases he
      · cases he
        refine ⟨as, ⟨hroom, .inr ⟨ms', slots, rfl, hms.keysRead hread, ?_, has⟩⟩, hwhole⟩
        refine slots_varied hms hrow (fun p hp => ?_) hslots
        have hne : p.1 ≠ tag := by
          rw [RecordShape.names, ← names_variations depth] at htag
          have hmem : p.1 ∈ (fields.variations depth).map Prod.fst := List.mem_map_of_mem hp
          exact fun e => htag (e ▸ hmem)
        rw [List.lookup_cons, beq_false_of_ne hne]
        exact lookup_of_nodup hnodup p hp

theorem Variants.means_varied (depth : Nat) {tag : String} : {ts : List Type} →
    {v : Variants ts} → v.Lawful tag → {room : Nat} → v.height + depth ≤ room →
    ∀ l Vs M, v.variations depth l = some Vs → v.means room l = some M →
      LabelKeeps depth tag Vs M
  | _, .nil, _, _, _ => fun l Vs M hl _ => by
    rw [Variants.variations] at hl
    cases hl
  | _, .cons label r rest, hlawful, room, h => fun l Vs M hl hM => by
    rw [Variants.Lawful] at hlawful
    rw [Variants.height] at h
    rw [Variants.variations] at hl
    rw [Variants.means] at hM
    by_cases hlabel : l = label
    · rw [if_pos hlabel] at hl hM
      cases hl
      cases hM
      exact (RecordShape.labelKeeps depth hlawful.1.1 hlawful.1.2 (by omega)).map Sum.inl
    · rw [if_neg hlabel] at hl hM
      split at hM
      · cases hM
      · next M' hM' =>
        cases hM
        exact (Variants.means_varied depth hlawful.2 (by omega) l Vs M' hl hM').map Sum.inr
end

/-- **A text may be laid out in another way.** If a shape reads a text, it reads every
other layout of it as the same value. -/
theorem Shape.ofText_varied {depth : Nat} {s : Shape α} (hlawful : s.Lawful)
    (hheight : s.height + depth ≤ nesting) {t t' : Tree} {source source' : String}
    (ht : t.Text source) (ht' : t'.Text source') (hv : s.Varied depth t t') {a : α}
    (h : s.ofText source = .ok a) : s.ofText source' = .ok a :=
  (Shape.ofText_iff hlawful ht').mpr
    (Shape.means_varied depth hlawful hheight _ _ a hv ((Shape.ofText_iff hlawful ht).mp h))

end Json
end ModelStubs
