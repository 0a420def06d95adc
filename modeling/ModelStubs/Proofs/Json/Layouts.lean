/-
# Other layouts of the same value

A tree is laid out in another way for a shape if the members of its records are moved
around and members that are no field are put in, in every record at once and inside the
records inside it (`Json.Shape.Varied`). A tagged choice is a record with one field more,
the tag, which may stand anywhere.

Under the name of a field a layout has the same trees, varied themselves and in another
order (`Json.MembersVaried.valuesOf`). What is put in is plain, so that a layout of a
readable tree is readable (`Json.Shape.readable_varied`): there is room for it, since the
records of a shape stand no deeper than its height.

Key definitions: `Json.Variation`, `Json.MembersVaried`, `Json.EntriesVaried`,
`Json.Shape.Varied`.
Key theorems: `Json.MembersVaried.valuesOf`, `Json.MembersVaried.forall_mem`,
`Json.Shape.readable_varied`.
-/
import ModelStubs.Proofs.Json.PlainTrees

namespace ModelStubs
namespace Json

/-! ### Variations -/

/-- What one tree may be replaced by. -/
abbrev Variation : Type := Tree → Tree → Prop

/-- Variations of the values of fields, under their names and in their order. -/
abbrev Variations : Type := List (String × Variation)

/-- The tree stays as it is. -/
def Variation.same : Variation := fun t t' => t' = t

/-- The key of the member stays, and the value of a field is varied. -/
def MemberVaried (Vs : Variations) (m m' : List Char × Tree) : Prop :=
  m'.1 = m.1 ∧ ∀ k, keyName m.1 = some k → ((Vs.lookup k).getD .same) m.2 m'.2

/-- A member under a written key is varied as the field of its name. -/
theorem memberVaried_quote {Vs : Variations} {k : String} {t t' : Tree}
    (h : ((Vs.lookup k).getD .same) t t') : MemberVaried Vs (quote k, t) (quote k, t') := by
  refine ⟨rfl, fun k' hk' => ?_⟩
  cases (keyName_quote k).symm.trans hk'
  exact h

/-- A member that is no field, with a plain value. -/
def Inserted (depth : Nat) (Vs : Variations) (m : List Char × Tree) : Prop :=
  ∃ k, keyName m.1 = some k ∧ Vs.lookup k = none ∧ m.2.Plain depth

/-- The members are varied, others are put in, and all are brought into any order. -/
def MembersVaried (depth : Nat) (Vs : Variations) (ms ms' : List (List Char × Tree)) : Prop :=
  ∃ kept new, ms'.Perm (kept ++ new) ∧ List.Forall₂ (MemberVaried Vs) ms kept ∧
    ∀ m ∈ new, Inserted depth Vs m

/-- The entries are varied one by one as the fields in their order; those behind the last
field stay as they are. -/
def EntriesVaried : Variations → List Tree → List Tree → Prop
  | [], ts, ts' => ts' = ts
  | _ :: _, [], ts' => ts' = []
  | (_, V) :: Vs, t :: ts, ts' => ∃ u us, ts' = u :: us ∧ V t u ∧ EntriesVaried Vs ts us

/-- The entries of a list are varied. -/
def Variation.list (V : Variation) : Variation
  | .list ts, .list ts' => List.Forall₂ V ts ts'
  | t, t' => t' = t

/-- A record is varied in either spelling. -/
def Variation.record (depth : Nat) (Vs : Variations) : Variation
  | .list ts, .list ts' => EntriesVaried Vs ts ts'
  | .object ms, .object ms' => MembersVaried depth Vs ms ms'
  | t, t' => t' = t

/-- The record that the label names is varied. The tag is moved like a field, and stays as
it is. -/
def Variation.tagged (depth : Nat) (tag : String) (choose : String → Option Variations) :
    Variation
  | .list (l :: ts), .list (l' :: ts') =>
    l' = l ∧ ∃ name Vs, l.IsText name ∧ choose name = some Vs ∧ EntriesVaried Vs ts ts'
  | .object ms, .object ms' =>
    ∃ l name Vs, l ∈ valuesOf tag ms ∧ l.IsText name ∧ choose name = some Vs ∧
      MembersVaried depth ((tag, .same) :: Vs) ms ms'
  | t, t' => t' = t

mutual
/-- The second tree is another layout of the first for the shape; what is put in is plain
and nested at most this deep. -/
def Shape.Varied (depth : Nat) : {α : Type} → Shape α → Variation
  | _, .scalar _ => .same
  | _, .optional s => s.Varied depth
  | _, .list s => .list (s.Varied depth)
  | _, .record r => .record depth (r.variations depth)
  | _, .tagged _ tag variants _ => .tagged depth tag (variants.variations depth)

/-- The variations of the fields of a record. -/
def RecordShape.variations (depth : Nat) : {α : Type} → RecordShape α → Variations
  | _, .mk _ fields _ => fields.variations depth

/-- The variations of the fields. -/
def Fields.variations (depth : Nat) : {ts : List Type} → Fields ts → Variations
  | _, .nil => []
  | _, .cons field s rest => (field.name, s.Varied depth) :: rest.variations depth

/-- The variations of the fields of the record that has the label. -/
def Variants.variations (depth : Nat) : {ts : List Type} → Variants ts → String →
    Option Variations
  | _, .nil, _ => none
  | _, .cons label r rest, l =>
    if l = label then some (r.variations depth) else rest.variations depth l
end

/-! ### Members under a name -/

section Members

variable {depth : Nat} {Vs : Variations} {ms ms' kept : List (List Char × Tree)}

theorem memberVaried_valuesOf {k : String} {V : Variation} (hV : Vs.lookup k = some V)
    (h : List.Forall₂ (MemberVaried Vs) ms kept) :
    List.Forall₂ V (valuesOf k ms) (valuesOf k kept) := by
  refine List.rel_filterMap (fun m m' hm => ?_) h
  rw [hm.1]
  by_cases hk : keyName m.1 = some k
  · have hvalue := hm.2 k hk
    rw [hV] at hvalue
    rw [if_pos hk, if_pos hk]
    exact .some hvalue
  · rw [if_neg hk, if_neg hk]
    exact .none

theorem valuesOf_inserted {k : String} {V : Variation} (hV : Vs.lookup k = some V)
    {new : List (List Char × Tree)} (h : ∀ m ∈ new, Inserted depth Vs m) :
    valuesOf k new = [] := by
  induction new with
  | nil => rfl
  | cons m new ih =>
    obtain ⟨⟨k', hk', hnone, -⟩, hnew⟩ := List.forall_mem_cons.mp h
    have hne : keyName m.1 ≠ some k := by
      intro hk
      cases hk'.symm.trans hk
      rw [hV] at hnone
      cases hnone
    rw [valuesOf_cons_of_ne hne, ih hnew]

/-- Under the name of a field there are the same trees, varied and in some order. -/
theorem MembersVaried.valuesOf {k : String} {V : Variation} (hV : Vs.lookup k = some V)
    (h : MembersVaried depth Vs ms ms') :
    ∃ ts, (Json.valuesOf k ms').Perm ts ∧ List.Forall₂ V (Json.valuesOf k ms) ts := by
  obtain ⟨kept, new, hperm, hkept, hnew⟩ := h
  -- no new member has the name of a field
  refine ⟨Json.valuesOf k kept, ?_, memberVaried_valuesOf hV hkept⟩
  have hall := hperm.filterMap fun m => if keyName m.1 = some k then some m.2 else none
  rw [List.filterMap_append] at hall
  have hnone := valuesOf_inserted hV hnew
  unfold Json.valuesOf at hnone ⊢
  rw [hnone, List.append_nil] at hall
  exact hall

/-- One tree under the name of a field stays one tree. -/
theorem MembersVaried.valuesOf_single {k : String} {V : Variation} (hV : Vs.lookup k = some V)
    (h : MembersVaried depth Vs ms ms') {t : Tree} (ht : Json.valuesOf k ms = [t]) :
    ∃ t', Json.valuesOf k ms' = [t'] ∧ V t t' := by
  obtain ⟨ts, hperm, hall⟩ := h.valuesOf hV
  rw [ht] at hall
  cases hall with
  | cons hv hnil =>
    cases hnil
    exact ⟨_, List.perm_singleton.mp hperm, hv⟩

/-- No tree under the name of a field stays none. -/
theorem MembersVaried.valuesOf_nil {k : String} {V : Variation} (hV : Vs.lookup k = some V)
    (h : MembersVaried depth Vs ms ms') (hnil : Json.valuesOf k ms = []) :
    Json.valuesOf k ms' = [] := by
  obtain ⟨ts, hperm, hall⟩ := h.valuesOf hV
  rw [hnil] at hall
  cases hall
  exact List.perm_nil.mp hperm

/-- What holds of the varied members and of those put in holds of all. -/
theorem MembersVaried.forall_mem {P : List Char × Tree → Prop}
    (h : MembersVaried depth Vs ms ms') (hkept : ∀ m m', m ∈ ms → MemberVaried Vs m m' → P m')
    (hnew : ∀ m, Inserted depth Vs m → P m) : ∀ m ∈ ms', P m := by
  obtain ⟨kept, new, hperm, hall, hinserted⟩ := h
  intro m hm
  rcases List.mem_append.mp (hperm.mem_iff.mp hm) with hm | hm
  · clear hperm
    induction hall with
    | nil => cases hm
    | cons hv _ ih =>
      rcases List.mem_cons.mp hm with rfl | hm
      · exact hkept _ _ List.mem_cons_self hv
      · exact ih (fun n n' hn => hkept n n' (List.mem_cons_of_mem _ hn)) hm
  · exact hnew m (hinserted m hm)

theorem MembersVaried.keysRead (h : MembersVaried depth Vs ms ms') (hread : KeysRead ms) :
    KeysRead ms' := by
  refine h.forall_mem (fun m m' hm hv => ?_) fun m hm => ?_
  · rw [hv.1]
    exact hread m hm
  · obtain ⟨k, hk, -⟩ := hm
    rw [hk]
    rfl

end Members

/-! ### Layouts are as readable as before -/

/-- The variation keeps trees readable. -/
def KeepsReadable (room : Nat) (V : Variation) : Prop :=
  ∀ {t t' : Tree}, V t t' → t.Readable room → t'.Readable room

theorem keepsReadable_same (room : Nat) : KeepsReadable room .same := by
  rintro t _ rfl h
  exact h

theorem keepsReadable_lookup {room : Nat} {Vs : Variations}
    (h : ∀ p ∈ Vs, KeepsReadable room p.2) (k : String) :
    KeepsReadable room ((Vs.lookup k).getD .same) := by
  cases hk : Vs.lookup k with
  | none => exact keepsReadable_same room
  | some V =>
    obtain ⟨before, after, rfl, -⟩ := List.lookup_eq_some_iff.mp hk
    exact h (k, V) (List.mem_append_right _ List.mem_cons_self)

theorem MembersVaried.readable {depth room : Nat} {Vs : Variations}
    {ms ms' : List (List Char × Tree)} (h : MembersVaried depth Vs ms ms')
    (hVs : ∀ p ∈ Vs, KeepsReadable room p.2) (hdepth : depth ≤ room) (hkeys : KeysRead ms)
    (hread : ∀ m ∈ ms, m.2.Readable room) : ∀ m ∈ ms', m.2.Readable room := by
  refine h.forall_mem (fun m m' hm hv => ?_) fun m hm => ?_
  · obtain ⟨k, hk⟩ := Option.isSome_iff_exists.mp (hkeys m hm)
    exact keepsReadable_lookup hVs k (hv.2 k hk) (hread m hm)
  · obtain ⟨_, _, _, hplain⟩ := hm
    exact hplain.readable hdepth

theorem EntriesVaried.readable {room : Nat} : {Vs : Variations} → {ts ts' : List Tree} →
    EntriesVaried Vs ts ts' → (∀ p ∈ Vs, KeepsReadable room p.2) →
    (∀ t ∈ ts, t.Readable room) → ∀ t ∈ ts', t.Readable room
  | [], _, _, rfl, _, hread => hread
  | _ :: _, [], _, rfl, _, hread => hread
  | _ :: _, _ :: _, _, ⟨_, _, rfl, hu, hus⟩, hVs, hread => by
    obtain ⟨hV, hVs⟩ := List.forall_mem_cons.mp hVs
    obtain ⟨ht, hts⟩ := List.forall_mem_cons.mp hread
    exact List.forall_mem_cons.mpr ⟨hV hu ht, hus.readable hVs hts⟩

theorem keepsReadable_list {room : Nat} {V : Variation} (h : KeepsReadable (room - 1) V) :
    KeepsReadable room (.list V) := by
  intro t t' hv hread
  cases t with
  | scalar => rw [show t' = _ from hv]; exact hread
  | object => rw [show t' = _ from hv]; exact hread
  | list ts =>
    cases t' with
    | scalar => cases hv
    | object => cases hv
    | list ts' =>
      replace hv : List.Forall₂ V ts ts' := hv
      obtain ⟨hroom, hall⟩ := readable_list_iff.mp hread
      refine readable_list_iff.mpr ⟨hroom, ?_⟩
      clear hread
      induction hv with
      | nil => exact List.forall_mem_nil _
      | cons hu _ ih =>
        obtain ⟨ht, hts⟩ := List.forall_mem_cons.mp hall
        exact List.forall_mem_cons.mpr ⟨h hu ht, ih hts⟩

theorem keepsReadable_record {depth room : Nat} {Vs : Variations}
    (h : ∀ p ∈ Vs, KeepsReadable (room - 1) p.2) (hdepth : depth ≤ room - 1) :
    KeepsReadable room (.record depth Vs) := by
  intro t t' hv hread
  cases t with
  | scalar => rw [show t' = _ from hv]; exact hread
  | list ts =>
    cases t' with
    | scalar => cases hv
    | object => cases hv
    | list ts' =>
      obtain ⟨hroom, hall⟩ := readable_list_iff.mp hread
      exact readable_list_iff.mpr ⟨hroom, EntriesVaried.readable hv h hall⟩
  | object ms =>
    cases t' with
    | scalar => cases hv
    | list => cases hv
    | object ms' =>
      obtain ⟨hroom, hkeys, hall⟩ := readable_object_iff.mp hread
      exact readable_object_iff.mpr
        ⟨hroom, MembersVaried.keysRead hv hkeys, MembersVaried.readable hv h hdepth hkeys hall⟩

/-- The variations of the record under any label keep trees readable. -/
def ChoosesReadable (depth room : Nat) (choose : String → Option Variations) : Prop :=
  ∀ l Vs, choose l = some Vs → (∀ p ∈ Vs, KeepsReadable (room - 1) p.2) ∧ depth ≤ room - 1

theorem forall_mem_tag {room : Nat} {tag : String} {Vs : Variations}
    (h : ∀ p ∈ Vs, KeepsReadable room p.2) :
    ∀ p ∈ (tag, Variation.same) :: Vs, KeepsReadable room p.2 :=
  List.forall_mem_cons.mpr ⟨keepsReadable_same room, h⟩

theorem keepsReadable_tagged {depth room : Nat} {tag : String}
    {choose : String → Option Variations} (h : ChoosesReadable depth room choose) :
    KeepsReadable room (.tagged depth tag choose) := by
  intro t t' hv hread
  match t, t', hv with
  | .scalar _, u, hv => rw [show u = _ from hv]; exact hread
  | .list (l :: ts), .list (l' :: ts'), ⟨hl, name, Vs, _, hchoose, hts⟩ =>
    subst hl
    obtain ⟨hroom, hall⟩ := readable_list_iff.mp hread
    obtain ⟨hlabel, hall⟩ := List.forall_mem_cons.mp hall
    exact readable_list_iff.mpr
      ⟨hroom, List.forall_mem_cons.mpr ⟨hlabel, hts.readable (h name Vs hchoose).1 hall⟩⟩
  | .list [], u, hv => rw [show u = _ from hv]; exact hread
  | .list (_ :: _), .list [], hv => cases hv
  | .list (_ :: _), .scalar _, hv => cases hv
  | .list (_ :: _), .object _, hv => cases hv
  | .object ms, .object ms', ⟨_, name, Vs, _, _, hchoose, hms⟩ =>
    obtain ⟨hroom, hkeys, hall⟩ := readable_object_iff.mp hread
    obtain ⟨hVs, hdepth⟩ := h name Vs hchoose
    exact readable_object_iff.mpr
      ⟨hroom, hms.keysRead hkeys, hms.readable (forall_mem_tag hVs) hdepth hkeys hall⟩
  | .object _, .list _, hv => cases hv
  | .object _, .scalar _, hv => cases hv

mutual
/-- A layout is readable if the tree was and there is room for what is put in. -/
theorem Shape.readable_varied (depth : Nat) : {α : Type} → (s : Shape α) → {room : Nat} →
    s.height + depth ≤ room → KeepsReadable room (s.Varied depth)
  | _, .scalar _, room, _ => by
    rw [Shape.Varied]
    exact keepsReadable_same room
  | _, .optional s, room, h => by
    rw [Shape.height] at h
    rw [Shape.Varied]
    exact s.readable_varied depth h
  | _, .list s, room, h => by
    rw [Shape.height] at h
    rw [Shape.Varied]
    exact keepsReadable_list (s.readable_varied depth (by omega))
  | _, .record r, room, h => by
    rw [Shape.height] at h
    rw [Shape.Varied]
    obtain ⟨hVs, hdepth⟩ := r.readable_varied depth h
    exact keepsReadable_record hVs hdepth
  | _, .tagged _ tag variants _, room, h => by
    rw [Shape.height] at h
    rw [Shape.Varied]
    exact keepsReadable_tagged (variants.readable_varied depth h)

theorem RecordShape.readable_varied (depth : Nat) : {α : Type} → (r : RecordShape α) →
    {room : Nat} → r.height + depth ≤ room →
    (∀ p ∈ r.variations depth, KeepsReadable (room - 1) p.2) ∧ depth ≤ room - 1
  | _, .mk _ fields _, room, h => by
    rw [RecordShape.height] at h
    rw [RecordShape.variations]
    exact ⟨fields.readable_varied depth (by omega), by omega⟩

theorem Fields.readable_varied (depth : Nat) : {ts : List Type} → (f : Fields ts) →
    {room : Nat} → f.height + depth ≤ room → ∀ p ∈ f.variations depth, KeepsReadable room p.2
  | _, .nil, _, _ => by
    rw [Fields.variations]
    exact List.forall_mem_nil _
  | _, .cons field s rest, room, h => by
    rw [Fields.height] at h
    rw [Fields.variations]
    exact List.forall_mem_cons.mpr
      ⟨s.readable_varied depth (by omega), rest.readable_varied depth (by omega)⟩

theorem Variants.readable_varied (depth : Nat) : {ts : List Type} → (v : Variants ts) →
    {room : Nat} → v.height + depth ≤ room → ChoosesReadable depth room (v.variations depth)
  | _, .nil, _, _ => fun l Vs hl => by
    rw [Variants.variations] at hl
    cases hl
  | _, .cons label r rest, room, h => fun l Vs hl => by
    rw [Variants.height] at h
    rw [Variants.variations] at hl
    split at hl
    · cases hl
      exact r.readable_varied depth (by omega)
    · exact rest.readable_varied depth (by omega) l Vs hl
end

end Json
end ModelStubs
