/-
# What is written is read back

A value of a shape that was encoded decodes to itself (`Json.Shape.decode_encode`), if
the shape is lawful: the fields of a record have distinct names, the records of a tagged
choice have distinct labels and no field that is named like the tag, and what may be
null is no value that may be null itself. The compact text of the encoded value spells
it, since its numbers are counts of 32 bits and its brackets are nested no deeper than
the shape says (`Json.Shape.fits_encode`). As reading is decoding what the text spells,
the text is read back.

Key definitions: `Json.Shape.Lawful`, `Json.Shape.height`.
Key theorems: `Json.Shape.decode_encode`, `Json.Shape.fits_encode`,
`Json.Shape.ofText_compact`.
-/
import ModelStubs.Proofs.Json.Decoding

namespace ModelStubs
namespace Json

/-! ### Lawful shapes -/

/-- Null is a spelling of the shape. -/
def Shape.isOptional : {α : Type} → Shape α → Bool
  | _, .optional _ => true
  | _, _ => false

/-- The names of the fields in their order. -/
def Fields.names : {ts : List Type} → Fields ts → List String
  | _, .nil => []
  | _, .cons field _ rest => field.name :: rest.names

/-- The names of the fields of a record. -/
def RecordShape.names : {α : Type} → RecordShape α → List String
  | _, .mk _ fields _ => fields.names

mutual
/-- What the shape encodes can be told apart. -/
def Shape.Lawful : {α : Type} → Shape α → Prop
  | _, .scalar _ => True
  | _, .optional s => s.isOptional = false ∧ s.Lawful
  | _, .list s => s.Lawful
  | _, .record r => r.Lawful
  | _, .tagged _ tag variants _ => variants.labels.Nodup ∧ variants.Lawful tag

/-- The fields have distinct names, and their shapes are lawful. -/
def RecordShape.Lawful : {α : Type} → RecordShape α → Prop
  | _, .mk _ fields _ => fields.names.Nodup ∧ fields.Lawful

/-- The shapes of the fields are lawful. -/
def Fields.Lawful : {ts : List Type} → Fields ts → Prop
  | _, .nil => True
  | _, .cons _ s rest => s.Lawful ∧ rest.Lawful

/-- The records are lawful, and none has a field that is named like the tag. -/
def Variants.Lawful (tag : String) : {ts : List Type} → Variants ts → Prop
  | _, .nil => True
  | _, .cons _ r rest => (tag ∉ r.names ∧ r.Lawful) ∧ rest.Lawful tag
end

mutual
/-- Whether a shape is lawful can be decided. -/
def Shape.decideLawful : {α : Type} → (s : Shape α) → Decidable s.Lawful
  | _, .scalar _ => isTrue trivial
  | _, .optional s =>
    have := s.decideLawful
    inferInstanceAs (Decidable (s.isOptional = false ∧ s.Lawful))
  | _, .list s => s.decideLawful
  | _, .record r => r.decideLawful
  | _, .tagged _ tag variants _ =>
    have := variants.decideLawful tag
    inferInstanceAs (Decidable (variants.labels.Nodup ∧ variants.Lawful tag))

def RecordShape.decideLawful : {α : Type} → (r : RecordShape α) → Decidable r.Lawful
  | _, .mk _ fields _ =>
    have := fields.decideLawful
    inferInstanceAs (Decidable (fields.names.Nodup ∧ fields.Lawful))

def Fields.decideLawful : {ts : List Type} → (f : Fields ts) → Decidable f.Lawful
  | _, .nil => isTrue trivial
  | _, .cons _ s rest =>
    have := s.decideLawful
    have := rest.decideLawful
    inferInstanceAs (Decidable (s.Lawful ∧ rest.Lawful))

def Variants.decideLawful (tag : String) : {ts : List Type} → (v : Variants ts) →
    Decidable (v.Lawful tag)
  | _, .nil => isTrue trivial
  | _, .cons _ r rest =>
    have := r.decideLawful
    have := rest.decideLawful tag
    inferInstanceAs (Decidable ((tag ∉ r.names ∧ r.Lawful) ∧ rest.Lawful tag))
end

instance {α : Type} (s : Shape α) : Decidable s.Lawful := s.decideLawful

/-! ### Scalars, options and lists -/

theorem decode_toScalar {α : Type} (k : ScalarShape α) (a : α) :
    k.decode (.scalar (k.toScalar a)) = .ok a := by
  cases k with
  | text => rfl
  | label => rfl
  | flag => rfl
  | count =>
    have hlt : a.toNat < UInt32.size := a.toNat_lt
    show ScalarShape.asCount (.number (.natural a.toNat)) = _
    rw [ScalarShape.asCount, if_pos hlt, Nat.toUInt32_eq, UInt32.ofNat_toNat]

theorem encode_ne_null : {α : Type} → {s : Shape α} → s.isOptional = false → (a : α) →
    s.encode a ≠ .null
  | _, .scalar k, _, a => by
    rw [Shape.encode]
    cases k <;> nofun
  | _, .optional _, h, _ => by cases h
  | _, .list _, _, _ => by rw [Shape.encode]; nofun
  | _, .record _, _, _ => by rw [Shape.encode]; nofun
  | _, .tagged _ _ _ _, _, _ => by rw [Shape.encode]; nofun

theorem decode_encodeOptional {α : Type} {d : Decoder α} {encode : α → Value}
    (h : ∀ a, d (encode a) = .ok a) (hne : ∀ a, encode a ≠ .null) (a : Option α) :
    d.optional (encodeOptional encode a) = .ok a := by
  cases a with
  | none => rfl
  | some a =>
    rw [encodeOptional, decode_optional_of_ne (hne a)]
    exact decode_map_eq_ok.mpr ⟨a, h a, rfl⟩

theorem decodeAll_map {α : Type} {d : Decoder α} {encode : α → Value}
    (h : ∀ a, d (encode a) = .ok a) : ∀ as : List α, decodeAll d (as.map encode) = .ok as
  | [] => rfl
  | a :: as => decodeAll_cons.mpr ⟨a, as, h a, decodeAll_map h as, rfl⟩

/-! ### Records -/

theorem mem_names_of_encode : {ts : List Type} → {f : Fields ts} → {as : Tuple ts} →
    {m : String × Value} → m ∈ f.encode as → m.1 ∈ f.names
  | _, .nil, _, m, h => by
    rw [Fields.encode] at h
    cases h
  | _, .cons field s rest, (a, as), m, h => by
    rw [Fields.encode] at h
    rw [Fields.names]
    split at h
    · exact List.mem_cons_of_mem _ (mem_names_of_encode h)
    · rcases List.mem_cons.mp h with rfl | h
      · exact List.mem_cons_self
      · exact List.mem_cons_of_mem _ (mem_names_of_encode h)

theorem decodeMembers_of_some {ts : List Type} {row : Row (Entry Decoder) ts}
    {x y : Row Option ts} {k : String} {v : Value} (h : decodeField row x k v = .ok (some y))
    (ms : List (String × Value)) : decodeMembers row x ((k, v) :: ms) = decodeMembers row y ms := by
  rw [decodeMembers, h]

theorem decodeMembers_of_none {ts : List Type} {row : Row (Entry Decoder) ts}
    {x : Row Option ts} {k : String} {v : Value} (h : decodeField row x k v = .ok none)
    (ms : List (String × Value)) : decodeMembers row x ((k, v) :: ms) = decodeMembers row x ms := by
  rw [decodeMembers, h]

/-- The key of the first field sets its value. -/
theorem decodeField_self {α : Type} {ts : List Type} {e : Entry Decoder α}
    {es : Row (Entry Decoder) ts} {v : Value} {a : α} (h : e.body v = .ok a) (x : Row Option ts) :
    @decodeField (α :: ts) (e, es) (none, x) e.field.name v = .ok (some (some a, x)) := by
  rw [decodeField, if_pos rfl]
  simp only [Option.isSome_none, Bool.false_eq_true, if_false, h]

/-- Another key goes on to the other fields. -/
theorem decodeField_of_ne {α : Type} {ts : List Type} {e : Entry Decoder α}
    {es : Row (Entry Decoder) ts} {k : String} (hk : k ≠ e.field.name) {v : Value}
    {x : Row Option ts} {y : Option (Row Option ts)} (h : decodeField es x k v = .ok y)
    (slot : Option α) :
    @decodeField (α :: ts) (e, es) (slot, x) k v = .ok (y.map fun z => (slot, z)) := by
  rw [decodeField, if_neg hk, h]
  cases y <;> rfl

/-- Entries with other keys leave the value of the first field as it is. -/
theorem decodeMembers_cons_of_ne {α : Type} {ts : List Type} {e : Entry Decoder α}
    {es : Row (Entry Decoder) ts} {slot : Option α} : ∀ {ms : List (String × Value)}
    {x y : Row Option ts}, (∀ m ∈ ms, m.1 ≠ e.field.name) →
    decodeMembers es x ms = .ok y →
    @decodeMembers (α :: ts) (e, es) (slot, x) ms = .ok (slot, y)
  | [], x, y, _, h => by
    cases h
    rfl
  | (k, v) :: ms, x, y, hne, h => by
    have hk : k ≠ e.field.name := hne (k, v) List.mem_cons_self
    have hrest : ∀ m ∈ ms, m.1 ≠ e.field.name := fun m hm => hne m (List.mem_cons_of_mem _ hm)
    rw [decodeMembers] at h
    split at h
    · cases h
    · next hf =>
      have hfirst := decodeField_of_ne hk hf slot
      exact (decodeMembers_of_none hfirst ms).trans (decodeMembers_cons_of_ne hrest h)
    · next z hf =>
      have hfirst := decodeField_of_ne hk hf slot
      exact (decodeMembers_of_some hfirst ms).trans (decodeMembers_cons_of_ne hrest h)

/-- The values that are found when a tuple is decoded: all that were not hidden. -/
def Fields.shown : {ts : List Type} → Fields ts → Tuple ts → Row Option ts
  | _, .nil, _ => ()
  | _, .cons field _ rest, (a, as) => (if field.hidden a then none else some a, rest.shown as)

/-- What is hidden is what stands for an absent field. -/
theorem complete_shown : {ts : List Type} → (f : Fields ts) → (as : Tuple ts) →
    complete f.decode (f.shown as) = .ok as
  | _, .nil, () => rfl
  | _, .cons field s rest, (a, as) => by
    rw [Fields.decode, Fields.shown, complete, complete_shown rest as]
    by_cases h : field.hidden a = true
    · rw [if_pos h, field.absent_of_hidden a h]
      rfl
    · rw [if_neg h]
      rfl

/-- The entries of a tuple are decoded if its first value and the other entries are. -/
theorem decodeMembers_encode_cons {α : Type} {ts : List Type} {field : Field α} {s : Shape α}
    {rest : Fields ts} (hname : field.name ∉ rest.names) {a : α} {as : Tuple ts}
    (ha : s.decode (s.encode a) = .ok a)
    (hrest : decodeMembers rest.decode Row.none (rest.encode as) = .ok (rest.shown as)) :
    @decodeMembers (α :: ts) (Fields.cons field s rest).decode Row.none
      ((Fields.cons field s rest).encode (a, as)) =
        .ok ((Fields.cons field s rest).shown (a, as)) := by
  have hne : ∀ m ∈ rest.encode as, m.1 ≠ field.name := by
    intro m hm e
    rw [← e] at hname
    exact hname (mem_names_of_encode hm)
  rw [Fields.encode, Fields.decode, Fields.shown]
  by_cases h : field.hidden a = true
  · rw [if_pos h, if_pos h]
    exact decodeMembers_cons_of_ne hne hrest
  · rw [if_neg h, if_neg h]
    have hfirst : @decodeField (α :: ts) (⟨field, s.decode⟩, rest.decode) (none, Row.none)
        field.name (s.encode a) = .ok (some (some a, Row.none)) := decodeField_self ha Row.none
    exact (decodeMembers_of_some hfirst _).trans (decodeMembers_cons_of_ne hne hrest)

theorem decodeRecord_object {name : String} {ts : List Type} {row : Row (Entry Decoder) ts}
    {ms : List (String × Value)} {slots : Row Option ts} {as : Tuple ts}
    (hs : decodeMembers row Row.none ms = .ok slots) (has : complete row slots = .ok as) :
    decodeRecord name row (.object ms) = .ok as := by
  rw [decodeRecord, hs]
  exact has

/-! ### Tagged choices -/

theorem decodeTag_of_ne {α : Type} {tag : String} {known : List String}
    {choose : String → Option (Decoder α)} {found : Option (Decoder α)} :
    ∀ {ms : List (String × Value)}, (∀ m ∈ ms, m.1 ≠ tag) →
      decodeTag tag known choose found ms = .ok (found, ms)
  | [], _ => rfl
  | (k, v) :: ms, h => by
    have hk : k ≠ tag := h (k, v) List.mem_cons_self
    have hrest : ∀ m ∈ ms, m.1 ≠ tag := fun m hm => h m (List.mem_cons_of_mem _ hm)
    rw [decodeTag, if_neg hk, decodeTag_of_ne hrest]

/-- What stands behind the tag is decoded as the label says. -/
theorem decodeTagged_object {α : Type} {name tag label : String} {known : List String}
    {choose : String → Option (Decoder α)} {d : Decoder α} {ms : List (String × Value)}
    (hd : choose label = some d) (hne : ∀ m ∈ ms, m.1 ≠ tag) :
    decodeTagged name tag known choose (.object ((tag, .text label) :: ms)) = d (.object ms) := by
  have hlabel : decodeLabel known choose (.text label) = .ok d := by
    rw [decodeLabel, Value.text, ScalarShape.decode, ScalarShape.ofScalar, ScalarShape.asText]
    simp only [hd]
  rw [decodeTagged, decodeTag, if_pos rfl]
  simp only [Option.isSome_none, Bool.false_eq_true, if_false, hlabel, decodeTag_of_ne hne]

theorem mem_names_of_encode_record {α : Type} {r : RecordShape α} {a : α} {m : String × Value}
    (h : m ∈ r.encode a) : m.1 ∈ r.names := by
  cases r with
  | mk name fields view =>
    rw [RecordShape.encode] at h
    exact mem_names_of_encode h

theorem mem_labels_of_encode : {ts : List Type} → (v : Variants ts) → (x : Choice ts) →
    (v.encode x).1 ∈ v.labels
  | _, .nil, x => nomatch x
  | _, .cons label r rest, .inl a => by
    rw [Variants.encode, Variants.labels]
    exact List.mem_cons_self
  | _, .cons label r rest, .inr x => by
    rw [Variants.encode, Variants.labels]
    exact List.mem_cons_of_mem _ (mem_labels_of_encode rest x)

theorem ne_tag_of_encode {tag : String} : {ts : List Type} → {v : Variants ts} → v.Lawful tag →
    (x : Choice ts) → ∀ m ∈ (v.encode x).2, m.1 ≠ tag
  | _, .nil, _, x => nomatch x
  | _, .cons label r rest, h, .inl a => by
    intro m hm e
    rw [Variants.Lawful] at h
    rw [Variants.encode] at hm
    exact h.1.1 (e ▸ mem_names_of_encode_record hm)
  | _, .cons label r rest, h, .inr x => by
    rw [Variants.Lawful] at h
    rw [Variants.encode]
    exact ne_tag_of_encode h.2 x

/-! ### Shapes -/

mutual
/-- A value that was encoded decodes to itself. -/
theorem Shape.decode_encode : {α : Type} → {s : Shape α} → s.Lawful → (a : α) →
    s.decode (s.encode a) = .ok a
  | _, .scalar k, _, a => by
    rw [Shape.decode, Shape.encode]
    exact decode_toScalar k a
  | _, .optional s, h, a => by
    rw [Shape.Lawful] at h
    rw [Shape.decode, Shape.encode]
    exact decode_encodeOptional (Shape.decode_encode h.2) (encode_ne_null h.1) a
  | _, .list s, h, as => by
    rw [Shape.Lawful] at h
    rw [Shape.decode, Shape.encode]
    exact decodeAll_map (Shape.decode_encode h) as
  | _, .record r, h, a => by
    rw [Shape.Lawful] at h
    rw [Shape.decode, Shape.encode]
    exact RecordShape.decode_encode h a
  | _, .tagged name tag variants view, h, a => by
    rw [Shape.Lawful] at h
    obtain ⟨d, hd, ha⟩ := Variants.decode_encode h.1 h.2 (view.parts a)
    rw [Shape.decode, Shape.encode]
    refine decode_map_eq_ok.mpr ⟨view.parts a, ?_, view.whole_parts a⟩
    exact (decodeTagged_object hd (ne_tag_of_encode h.2 (view.parts a))).trans ha

theorem RecordShape.decode_encode : {α : Type} → {r : RecordShape α} → r.Lawful → (a : α) →
    r.decode (.object (r.encode a)) = .ok a
  | _, .mk name fields view, h, a => by
    rw [RecordShape.Lawful] at h
    rw [RecordShape.decode, RecordShape.encode]
    refine decode_map_eq_ok.mpr ⟨view.parts a, ?_, view.whole_parts a⟩
    exact decodeRecord_object (Fields.decode_encode h.1 h.2 _) (complete_shown fields _)

theorem Fields.decode_encode : {ts : List Type} → {f : Fields ts} → f.names.Nodup → f.Lawful →
    (as : Tuple ts) → decodeMembers f.decode Row.none (f.encode as) = .ok (f.shown as)
  | _, .nil, _, _, _ => rfl
  | _, .cons field s rest, hnames, h, (a, as) => by
    rw [Fields.Lawful] at h
    rw [Fields.names] at hnames
    obtain ⟨hname, hrest⟩ := List.nodup_cons.mp hnames
    exact decodeMembers_encode_cons hname (Shape.decode_encode h.1 a)
      (Fields.decode_encode hrest h.2 as)

theorem Variants.decode_encode {tag : String} : {ts : List Type} → {v : Variants ts} →
    v.labels.Nodup → v.Lawful tag → (x : Choice ts) →
    ∃ d, v.choose (v.encode x).1 = some d ∧ d (.object (v.encode x).2) = .ok x
  | _, .nil, _, _, x => nomatch x
  | _, .cons label r rest, _, h, .inl a => by
    rw [Variants.Lawful] at h
    refine ⟨r.decode.map Sum.inl, ?_, decode_map_eq_ok.mpr ⟨a, ?_, rfl⟩⟩
    · rw [Variants.encode, Variants.choose, if_pos rfl]
    · rw [Variants.encode]
      exact RecordShape.decode_encode h.1.2 a
  | _, .cons label r rest, hlabels, h, .inr x => by
    rw [Variants.Lawful] at h
    rw [Variants.labels] at hlabels
    obtain ⟨hlabel, hrest⟩ := List.nodup_cons.mp hlabels
    obtain ⟨d, hd, hx⟩ := Variants.decode_encode hrest h.2 x
    have hne : (rest.encode x).1 ≠ label := by
      intro e
      rw [← e] at hlabel
      exact hlabel (mem_labels_of_encode rest x)
    refine ⟨d.map Sum.inr, ?_, decode_map_eq_ok.mpr ⟨x, ?_, rfl⟩⟩
    · rw [Variants.encode, Variants.choose, if_neg hne, hd]
    · rw [Variants.encode]
      exact hx
end

/-! ### Nesting -/

mutual
/-- How many brackets are open at once at most when a value of the shape is written. -/
def Shape.height : {α : Type} → Shape α → Nat
  | _, .scalar _ => 0
  | _, .optional s => s.height
  | _, .list s => s.height + 1
  | _, .record r => r.height
  | _, .tagged _ _ variants _ => variants.height

/-- The brackets of a record. -/
def RecordShape.height : {α : Type} → RecordShape α → Nat
  | _, .mk _ fields _ => fields.height + 1

/-- The brackets inside those of a record. -/
def Fields.height : {ts : List Type} → Fields ts → Nat
  | _, .nil => 0
  | _, .cons _ s rest => max s.height rest.height

/-- The brackets of the records of a tagged choice. -/
def Variants.height : {ts : List Type} → Variants ts → Nat
  | _, .nil => 0
  | _, .cons _ r rest => max r.height rest.height
end

theorem Value.Fits.mono {room : Nat} {v : Value} (h : v.Fits room) :
    ∀ {more : Nat}, room ≤ more → v.Fits more := by
  induction h with
  | scalar hv => exact fun _ => .scalar hv
  | @list room vs _ ih =>
    intro more hle
    obtain ⟨n, rfl⟩ : ∃ n, more = n + 1 := ⟨more - 1, by omega⟩
    exact .list fun v hv => ih v hv (by omega)
  | @object room ms _ ih =>
    intro more hle
    obtain ⟨n, rfl⟩ : ∃ n, more = n + 1 := ⟨more - 1, by omega⟩
    exact .object fun m hm => ih m hm (by omega)

/-- Counts of 32 bits are read back as they are. -/
theorem exact_toScalar {α : Type} (k : ScalarShape α) (a : α) : (k.toScalar a).Exact := by
  cases k with
  | text => trivial
  | label => trivial
  | flag => trivial
  | count =>
    have hlt : a.toNat < 2 ^ 32 := a.toNat_lt
    show a.toNat ≤ largestWord
    unfold largestWord UInt64.size
    omega

/-- The tag needs no bracket of its own. -/
theorem fits_tagged {room : Nat} {ms : List (String × Value)} (tag label : String)
    (h : (Value.object ms).Fits room) : (Value.object ((tag, .text label) :: ms)).Fits room := by
  cases h with
  | object h =>
    refine .object ?_
    intro m hm
    rcases List.mem_cons.mp hm with rfl | hm
    · exact .scalar trivial
    · exact h m hm

mutual
/-- A value that was encoded has no number that is rounded, and needs no more brackets
than the shape says. -/
theorem Shape.fits_encode : {α : Type} → (s : Shape α) → (a : α) → (s.encode a).Fits s.height
  | _, .scalar k, a => by
    rw [Shape.encode, Shape.height]
    exact .scalar (exact_toScalar k a)
  | _, .optional s, none => by
    rw [Shape.encode, Shape.height]
    exact .scalar trivial
  | _, .optional s, some a => by
    rw [Shape.encode, Shape.height]
    exact s.fits_encode a
  | _, .list s, as => by
    rw [Shape.encode, Shape.height]
    refine .list ?_
    intro v hv
    obtain ⟨a, -, rfl⟩ := List.mem_map.mp hv
    exact s.fits_encode a
  | _, .record r, a => by
    rw [Shape.encode, Shape.height]
    exact r.fits_encode a
  | _, .tagged name tag variants view, a => by
    rw [Shape.encode, Shape.height]
    exact variants.fits_encode tag (view.parts a)

theorem RecordShape.fits_encode : {α : Type} → (r : RecordShape α) → (a : α) →
    (Value.object (r.encode a)).Fits r.height
  | _, .mk name fields view, a => by
    rw [RecordShape.encode, RecordShape.height]
    exact .object (fields.fits_encode (view.parts a))

theorem Fields.fits_encode : {ts : List Type} → (f : Fields ts) → (as : Tuple ts) →
    ∀ m ∈ f.encode as, m.2.Fits f.height
  | _, .nil, _ => by
    intro m hm
    rw [Fields.encode] at hm
    cases hm
  | _, .cons field s rest, (a, as) => by
    have hrest : ∀ m ∈ rest.encode as, m.2.Fits (max s.height rest.height) :=
      fun m hm => (rest.fits_encode as m hm).mono (Nat.le_max_right _ _)
    intro m hm
    rw [Fields.encode] at hm
    rw [Fields.height]
    split at hm
    · exact hrest m hm
    · rcases List.mem_cons.mp hm with rfl | hm
      · exact (s.fits_encode a).mono (Nat.le_max_left _ _)
      · exact hrest m hm

theorem Variants.fits_encode (tag : String) : {ts : List Type} → (v : Variants ts) →
    (x : Choice ts) →
    (Value.object ((tag, .text (v.encode x).1) :: (v.encode x).2)).Fits v.height
  | _, .nil, x => nomatch x
  | _, .cons label r rest, .inl a => by
    rw [Variants.encode, Variants.height]
    refine Value.Fits.mono ?_ (Nat.le_max_left _ _)
    exact fits_tagged tag label (r.fits_encode a)
  | _, .cons label r rest, .inr x => by
    rw [Variants.encode, Variants.height]
    exact (rest.fits_encode tag x).mono (Nat.le_max_right _ _)
end

/-! ### Texts -/

theorem endOfText_nil {α : Type} (a : α) : endOfText (.ok (a, [])) = .ok a := rfl

/-- **What is written is read back.** The compact text of a value of a lawful shape is
read as that value, if the shape is not higher than brackets may be nested. -/
theorem Shape.ofText_compact {α : Type} {s : Shape α} (hlawful : s.Lawful)
    (hheight : s.height ≤ nesting) (a : α) : s.ofText (s.compact a) = .ok a := by
  have hfits : (s.encode a).Fits nesting := (s.fits_encode a).mono hheight
  have hends : EndsNumber [] := by
    intro c hc
    cases hc
  have hspells : Spells nesting (s.encode a).compact (s.encode a) [] := by
    have h := (spells_compact hfits).2 [] hends
    rw [List.append_nil] at h
    exact h
  have hread := s.agrees nesting _ _ _ a hspells (Shape.decode_encode hlawful a)
  rw [Shape.ofText, Reader.ofText, Shape.compact, String.toList_ofList, hread, endOfText_nil]

end Json
end ModelStubs
