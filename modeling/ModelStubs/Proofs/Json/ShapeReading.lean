/-
# Reading what a tree means

A shape reads from the text of a tree what the tree means to it, and refuses the text if
it means nothing (`Json.Shape.reads`, `Json.Shape.ofText_iff`).

Two ways through a text meet here. A record is read as its text goes by, and members that
are no field are only passed over. A tagged choice is first read as values and then
decoded, so that its members must be readable and are decoded as their trees say.

Key theorems: `Json.Reads.record`, `Json.reads_tagged`, `Json.Shape.reads`,
`Json.Shape.ofText_iff`.
-/
import ModelStubs.Proofs.Json.TreeDecoding

namespace ModelStubs
namespace Json

variable {α β : Type}

/-! ### Scalars, options and lists -/

theorem reads_scalar (k : ScalarShape α) : Reads (.scalar k) (.scalar k) := by
  intro t a w rest u x hw ha hr
  unfold Reader.scalar
  cases hw with
  | scalar htoken =>
    constructor
    · intro h
      simp only at h
      split at h
      · cases h
      · next v t hh =>
        obtain ⟨v', he, hv⟩ := (head_token htoken ha hr).mp hh
        cases he
        split at h
        · cases h
        · next hk => cases h; exact ⟨rfl, w, v, rfl, hv, hk⟩
      · cases h
      · cases h
    · rintro ⟨rfl, _, v, he, hv, hk⟩
      cases he
      simp only [(head_token htoken ha hr).mpr ⟨v, rfl, hv⟩, hk]
  | list =>
    simp only [head_list ha rest]
    exact ⟨by rintro ⟨⟩, by rintro ⟨-, _, _, he, -⟩; cases he⟩
  | object =>
    simp only [head_object ha rest]
    exact ⟨by rintro ⟨⟩, by rintro ⟨-, _, _, he, -⟩; cases he⟩

theorem mapped_eq_ok_iff {f : α → β} {r : Except Stop (α × List Char)} {b : β} {u : List Char} :
    mapped f r = .ok (b, u) ↔ ∃ a, r = .ok (a, u) ∧ f a = b := by
  constructor
  · exact of_mapped
  · rintro ⟨a, rfl, rfl⟩
    rfl

theorem Reads.map {r : Reader α} {M : Meaning α} (h : Reads r M) (f : α → β) :
    Reads (r.map f) (M.map f) := by
  intro t a w rest u x hw ha hr
  refine mapped_eq_ok_iff.trans ?_
  constructor
  · rintro ⟨y, hy, rfl⟩
    obtain ⟨rfl, hm⟩ := (h hw ha hr).mp hy
    exact ⟨rfl, y, hm, rfl⟩
  · rintro ⟨rfl, y, hm, rfl⟩
    exact ⟨y, (h hw ha hr).mpr ⟨rfl, hm⟩, rfl⟩

/-- A token that starts with an `n` is null. -/
theorem isNull_of_n {t : Tree} {w v rest : List Char} (hw : t.Writes w)
    (h : w ++ rest = 'n' :: v) : t.IsNull := by
  cases hw with
  | scalar htoken =>
    obtain ⟨⟨c, x, rfl, -⟩, hpass⟩ := htoken
    cases h
    have hword : passedScalar (passWord ['u', 'l', 'l'] x) = .ok (.scalar []) := hpass
    rw [passWord_eq_ok (passedScalar_rest hword)]
    exact ⟨_, rfl, rfl⟩
  | list => cases h
  | object => cases h

theorem Reads.optional {r : Reader α} {M : Meaning α} (h : Reads r M) :
    Reads r.optional M.optional := by
  intro t a w rest u x hw ha hr
  have hskip : skipSpace (a ++ (w ++ rest)) = w ++ rest := by
    rw [skipSpace_blank ha, skipSpace_of_startsEntry (hw.startsEntry.append rest)]
  by_cases hnull : t.IsNull
  · have hrun : r.optional.run (a ++ (w ++ rest)) = .ok (none, rest) := by
      obtain ⟨v, rfl, hv⟩ := hnull
      cases hw with
      | scalar htoken =>
        exact optional_of_null ((head_token htoken ha hr).mpr ⟨.null, rfl, hv⟩)
    rw [hrun]
    constructor
    · intro he
      cases he
      exact ⟨rfl, .inl ⟨hnull, rfl⟩⟩
    · rintro ⟨rfl, ⟨-, rfl⟩ | ⟨hnot, -⟩⟩
      · rfl
      · exact absurd hnull hnot
  · have hne : ∀ v, skipSpace (a ++ (w ++ rest)) ≠ 'n' :: v :=
      fun v hv => hnull (isNull_of_n hw (hskip.symm.trans hv))
    rw [optional_of_ne hne, hskip, mapped_eq_ok_iff]
    have hread : ∀ {b}, r.run (w ++ rest) = .ok (b, u) ↔ u = rest ∧ M t b := h hw blank_nil hr
    constructor
    · rintro ⟨b, hb, rfl⟩
      obtain ⟨rfl, hm⟩ := hread.mp hb
      exact ⟨rfl, .inr ⟨hnull, b, hm, rfl⟩⟩
    · rintro ⟨rfl, ⟨hn, -⟩ | ⟨-, b, hm, rfl⟩⟩
      · exact absurd hn hnull
      · exact ⟨b, hread.mpr ⟨rfl, hm⟩, rfl⟩

theorem Reads.list {room : Nat} {r : Reader α} {M : Meaning α} (h : Reads r M) :
    Reads (.list room r) (.list room M) := by
  intro t a w rest u as hw ha hr
  unfold Reader.list
  cases hw with
  | scalar htoken =>
    constructor
    · intro h
      simp only at h
      split at h
      · cases h
      · cases h
      · next hh => exact (htoken.not_list ha hr hh).elim
      · cases h
    · rintro ⟨-, -, _, he, -⟩
      cases he
  | @list ts x hx =>
    simp only [head_list ha rest]
    by_cases hroom : room = 0
    · rw [if_pos hroom]
      exact ⟨by rintro ⟨⟩, fun hm => absurd hroom hm.2.1⟩
    · rw [if_neg hroom, hx.listRest_iff h]
      constructor
      · rintro ⟨rfl, hall⟩
        exact ⟨rfl, hroom, ts, rfl, hall⟩
      · rintro ⟨rfl, -, _, he, hall⟩
        cases he
        exact ⟨rfl, hall⟩
  | object =>
    simp only [head_object ha rest]
    exact ⟨by rintro ⟨⟩, by rintro ⟨-, -, _, he, -⟩; cases he⟩

/-! ### Records -/

/-- The rows of readers and meanings belong together. -/
abbrev RowReads {ts : List Type} (rs : Row (Entry Reader) ts) (row : Row (Entry Meaning) ts) :
    Prop :=
  Row.Rel Reads rs row

theorem readField_of_not_mem : {ts : List Type} → {rs : Row (Entry Reader) ts} →
    {x : Row Option ts} → {k : String} → {s : List Char} → k ∉ Row.names rs →
    readField rs x k s = .ok none
  | [], _, _, _, _, _ => rfl
  | _ :: _, (r, rs), (slot, slots), k, s, h => by
    obtain ⟨hk, hrest⟩ := not_or.mp (mt List.mem_cons.mpr h)
    rw [readField, if_neg hk, readField_of_not_mem hrest]

/-- The value of a field is read by one step on the row. -/
theorem RowReads.readField_iff : {ts : List Type} → {rs : Row (Entry Reader) ts} →
    {row : Row (Entry Meaning) ts} → RowReads rs row → (Row.names row).Nodup →
    {x : Row Option ts} → {z : Option (Row Option ts × List Char)} → {k : String} → {t : Tree} →
    {a b w rest : List Char} → t.Writes w → Blank a → Blank b → EndsNumber rest →
    k ∈ Row.names row →
    (readField rs x k (a ++ ':' :: (b ++ (w ++ rest))) = .ok z ↔
      ∃ y, z = some (y, rest) ∧ rowStep row x k t y)
  | [], _, _, _, _, _, _, _, _, _, _, _, _, _, _, _, _, h => by cases h
  | α :: ts, (r, rs), (e, es), ⟨hf, hd, h⟩, hnodup, (slot, slots), z, k, t, a, b, w, rest, hw,
      ha, hb, hr, hmem => by
    obtain ⟨hname, hrest⟩ := List.nodup_cons.mp hnodup
    rw [readField, hf]
    by_cases hk : k = e.field.name
    · subst hk
      rw [if_pos rfl]
      cases slot with
      | some v =>
        constructor
        · rintro ⟨⟩
        · rintro ⟨⟨slot', slots'⟩, -, hy⟩
          cases ((rowStep_self hname).mp hy).1.1
      | none =>
        rw [Option.isSome_none, if_neg Bool.false_ne_true]
        constructor
        · intro hz
          split at hz
          · cases hz
          · next v u hv =>
            cases hz
            obtain ⟨rfl, hm⟩ := (hd.afterColon_iff hw ha hb hr).mp hv
            exact ⟨(some v, slots), rfl, (rowStep_self hname).mpr ⟨⟨rfl, v, hm, rfl⟩, rfl⟩⟩
        · rintro ⟨⟨slot', slots'⟩, rfl, hy⟩
          obtain ⟨⟨-, v, hm, rfl⟩, rfl⟩ := (rowStep_self hname).mp hy
          rw [(hd.afterColon_iff hw ha hb hr).mpr ⟨rfl, hm⟩]
    · have hmem : k ∈ Row.names es := (List.mem_cons.mp hmem).resolve_left hk
      have hiff : ∀ {z}, readField rs slots k (a ++ ':' :: (b ++ (w ++ rest))) = .ok z ↔
          ∃ y, z = some (y, rest) ∧ rowStep es slots k t y :=
        RowReads.readField_iff h hrest hw ha hb hr hmem
      rw [if_neg hk]
      constructor
      · intro hz
        split at hz
        · cases hz
        · next hnone =>
          obtain ⟨_, he, -⟩ := hiff.mp hnone
          cases he
        · next y u hy =>
          cases hz
          obtain ⟨_, he, hstep⟩ := hiff.mp hy
          cases he
          exact ⟨(slot, y), rfl, (rowStep_of_ne hk).mpr ⟨rfl, hstep⟩⟩
      · rintro ⟨⟨slot', slots'⟩, rfl, hy⟩
        obtain ⟨rfl, hslots⟩ := (rowStep_of_ne hk).mp hy
        rw [hiff.mpr ⟨slots', rfl, hslots⟩]

/-- A member that is no field is passed over whatever its value is. -/
theorem passMember_writes {t : Tree} {a b w rest : List Char} (hw : t.Writes w) (ha : Blank a)
    (hb : Blank b) (hr : EndsNumber rest) :
    passMember (a ++ ':' :: (b ++ (w ++ rest))) = .ok rest := by
  rw [passMember, colon_blank ha]
  simp only
  rw [passValue, pass_due_blank hb, hw.pass [] hr, pass]

/-- One member of an object is one step on the row. -/
theorem RowReads.steps {ts : List Type} {rs : Row (Entry Reader) ts}
    {row : Row (Entry Meaning) ts} (h : RowReads rs row) (hnodup : (Row.names row).Nodup) :
    Steps (.record rs) (rowStep row) := by
  intro t k a b w rest u x y hw ha hb hr
  unfold MemberReader.record
  simp only
  by_cases hmem : k ∈ Row.names row
  · have hfield : ∀ {z}, readField rs x k (a ++ ':' :: (b ++ (w ++ rest))) = .ok z ↔
        ∃ y, z = some (y, rest) ∧ rowStep row x k t y := h.readField_iff hnodup hw ha hb hr hmem
    constructor
    · intro he
      split at he
      · cases he
      · next z v hz =>
        cases he
        obtain ⟨_, hz', hstep⟩ := hfield.mp hz
        cases hz'
        exact ⟨rfl, hstep⟩
      · next hnone =>
        obtain ⟨_, hz, -⟩ := hfield.mp hnone
        cases hz
    · rintro ⟨rfl, hstep⟩
      rw [hfield.mpr ⟨y, rfl, hstep⟩]
  · rw [readField_of_not_mem (h.names ▸ hmem), passMember_writes hw ha hb hr,
      rowStep_of_not_mem hmem]
    constructor
    · intro he
      cases he
      exact ⟨rfl, rfl⟩
    · rintro ⟨rfl, rfl⟩
      rfl

/-- The entries of a list are read as the fields in their order, with the closing
bracket. -/
theorem RowReads.fields_iff (name : String) (total : Nat) : {ts : List Type} →
    {rs : Row (Entry Reader) ts} → {row : Row (Entry Meaning) ts} → RowReads rs row →
    {index : Nat} → {trees : List Tree} → {x : List Char} → WritesItems (index == 0) trees x →
    {rest u : List Char} → {as : Tuple ts} →
    ((∃ v, readFields name total rs index (x ++ rest) = .ok (as, v) ∧ closeList v = (none, u)) ↔
      u = rest ∧ InOrder row trees as)
  | [], _, _, _, index, [], _, .nil ha, rest, u, as => by
    rw [List.append_assoc]
    constructor
    · rintro ⟨v, hv, hc⟩
      cases hv
      rw [closeList_eq_none_iff, skipSpace_blank ha] at hc
      cases hc
      exact ⟨rfl, rfl⟩
    · rintro ⟨rfl, -⟩
      refine ⟨_, rfl, closeList_eq_none_iff.mpr ?_⟩
      rw [skipSpace_blank ha]
      exact skipSpace_cons rfl u
  | [], _, _, _, index, t :: trees, _, .cons (x := y) ha hb hw _, rest, u, as => by
    have hnext := nextEntry_spaced .list (index == 0) ha hb (hw.startsEntry.append (y ++ rest))
    simp only [List.append_assoc]
    -- behind the last field only the bracket may stand
    constructor
    · rintro ⟨v, hv, hc⟩
      cases hv
      have hclose : skipSpace _ = Bracket.list.closer :: u := closeList_eq_none_iff.mp hc
      cases hnext.symm.trans (nextEntry_ended_iff.mpr ⟨u, hclose, rfl⟩)
    · rintro ⟨-, hnil⟩
      cases hnil
  | α :: ts, (r, rs), (e, es), ⟨hf, hd, h⟩, index, [], x, hx, rest, u, (v, as) => by
    have hnext : nextItem (index == 0) (x ++ rest) = .ok (.ended (']' :: rest)) := by
      cases hx with
      | nil ha =>
        rw [List.append_assoc]
        exact nextEntry_closer .list _ ha rest
    have hbracket : WritesItems (index + 1 == 0) [] [']'] := .nil blank_nil
    have ih : (∃ z, readFields name total rs (index + 1) (']' :: rest) = .ok (as, z) ∧
        closeList z = (none, u)) ↔ u = rest ∧ InOrder es [] as :=
      RowReads.fields_iff name total h hbracket
    constructor
    · rintro ⟨z, hz, hc⟩
      simp only [readFields, hnext] at hz
      split at hz
      · cases hz
      · next habsent =>
        split at hz
        · cases hz
        · next hrest =>
          cases hz
          obtain ⟨rfl, has⟩ := ih.mp ⟨_, hrest, hc⟩
          exact ⟨rfl, hf ▸ habsent, has⟩
    · rintro ⟨rfl, habsent, has⟩
      obtain ⟨z, hz, hc⟩ := ih.mpr ⟨rfl, has⟩
      exact ⟨z, readFields_absent hnext (hf ▸ habsent) hz, hc⟩
  | α :: ts, (r, rs), (e, es), ⟨hf, hd, h⟩, index, t :: trees, _,
      .cons (w := w) (x := y) ha hb hw hy, rest, u, (v, as) => by
    have hnext := nextEntry_spaced .list (index == 0) ha hb (hw.startsEntry.append (y ++ rest))
    have hread : ∀ {v : α} {z}, r.body.run (w ++ (y ++ rest)) = .ok (v, z) ↔
        z = y ++ rest ∧ e.body t v := hd hw blank_nil (hy.endsNumber rest)
    have hlater : WritesItems (index + 1 == 0) trees y := hy
    have ih : (∃ z, readFields name total rs (index + 1) (y ++ rest) = .ok (as, z) ∧
        closeList z = (none, u)) ↔ u = rest ∧ InOrder es trees as :=
      RowReads.fields_iff name total h hlater
    simp only [List.append_assoc]
    constructor
    · rintro ⟨z, hz, hc⟩
      simp only [readFields, nextItem_eq, hnext] at hz
      split at hz
      · cases hz
      · next hv =>
        obtain ⟨rfl, hm⟩ := hread.mp hv
        split at hz
        · cases hz
        · next hrest =>
          cases hz
          obtain ⟨rfl, has⟩ := ih.mp ⟨_, hrest, hc⟩
          exact ⟨rfl, hm, has⟩
    · rintro ⟨rfl, hm, has⟩
      obtain ⟨z, hz, hc⟩ := ih.mpr ⟨rfl, has⟩
      exact ⟨z, readFields_present hnext (hread.mpr ⟨rfl, hm⟩) hz, hc⟩

theorem closed_eq_ok_iff {close : List Char → Option Stop × List Char}
    {r : Except Stop (α × List Char)} {a : α} {t : List Char} :
    closed close r = .ok (a, t) ↔ ∃ s, r = .ok (a, s) ∧ close s = (none, t) := by
  constructor
  · exact of_closed
  · rintro ⟨s, rfl, h⟩
    exact closed_ok h

theorem readMembers_eq_ok_iff {ts : List Type} {rs : Row (Entry Reader) ts} {s t : List Char}
    {as : Tuple ts} : readMembers rs s = .ok (as, t) ↔
      ∃ slots, members (.record rs) true Row.none s = .ok (slots, t) ∧
        complete rs slots = .ok as := by
  unfold readMembers
  constructor
  · intro h
    split at h
    · cases h
    · next slots t hm =>
      split at h
      · cases h
      · next has => cases h; exact ⟨slots, hm, has⟩
  · rintro ⟨slots, hm, has⟩
    rw [hm]
    simp only [has]

/-- Records are read as their trees say if their fields are. -/
theorem Reads.record {room : Nat} (name : String) {ts : List Type} {rs : Row (Entry Reader) ts}
    {row : Row (Entry Meaning) ts} (h : RowReads rs row) (hnodup : (Row.names row).Nodup) :
    Reads (.record room name rs) (.record room row) := by
  intro t a w rest u as hw ha hr
  unfold Reader.record
  cases hw with
  | scalar htoken =>
    constructor
    · intro he
      simp only at he
      split at he
      · cases he
      · cases he
      · next hh => exact (htoken.not_list ha hr hh).elim
      · next hh => exact (htoken.not_object ha hr hh).elim
    · rintro ⟨-, -, ⟨_, he, -⟩ | ⟨_, _, he, -⟩⟩ <;> cases he
  | @list trees x hx =>
    simp only [head_list ha rest]
    by_cases hroom : room = 0
    · rw [if_pos hroom]
      exact ⟨by rintro ⟨⟩, fun hm => absurd hroom hm.2.1⟩
    · have hfirst : WritesItems ((0 : Nat) == 0) trees x := hx
      have hfields : (∃ v, readFields name ts.length rs 0 (x ++ rest) = .ok (as, v) ∧
          closeList v = (none, u)) ↔ u = rest ∧ InOrder row trees as :=
        RowReads.fields_iff name _ h hfirst
      rw [if_neg hroom, closed_eq_ok_iff, hfields]
      constructor
      · rintro ⟨rfl, has⟩
        exact ⟨rfl, hroom, .inl ⟨trees, rfl, has⟩⟩
      · rintro ⟨rfl, -, ⟨_, he, has⟩ | ⟨_, _, he, -⟩⟩
        · cases he
          exact ⟨rfl, has⟩
        · cases he
  | @object ms x hx =>
    simp only [head_object ha rest]
    by_cases hroom : room = 0
    · rw [if_pos hroom]
      exact ⟨by rintro ⟨⟩, fun hm => absurd hroom hm.2.1⟩
    · rw [if_neg hroom, closed_eq_ok_iff]
      constructor
      · rintro ⟨v, hv, hc⟩
        obtain ⟨slots, hm, has⟩ := readMembers_eq_ok_iff.mp hv
        obtain ⟨rfl, hruns⟩ := (hx.members_iff (h.steps hnodup)).mp hm
        obtain ⟨hread, hslots⟩ := runs_row_iff.mp hruns
        rw [closeObject_closer] at hc
        cases hc
        exact ⟨rfl, hroom,
          .inr ⟨ms, slots, rfl, hread, hslots, (h.complete slots).symm.trans has⟩⟩
      · rintro ⟨rfl, -, ⟨_, he, -⟩ | ⟨_, slots, he, hread, hslots, has⟩⟩
        · cases he
        · cases he
          have hm : members (.record rs) true Row.none (x ++ u) = .ok (slots, '\x7d' :: u) :=
            (hx.members_iff (h.steps hnodup)).mpr ⟨rfl, runs_row_iff.mpr ⟨hread, hslots⟩⟩
          exact ⟨_, readMembers_eq_ok_iff.mpr ⟨slots, hm, (h.complete slots).trans has⟩,
            closeObject_closer _⟩

/-! ### Tagged choices -/

theorem reads_label (known : List String) (choose : String → Option (Decoder α)) :
    Reads (.label known choose) (Meaning.label choose) := by
  intro t a w rest u d hw ha hr
  have hlabel : ∀ {l u}, (Reader.scalar .label).run (a ++ (w ++ rest)) = .ok (l, u) ↔
      u = rest ∧ Meaning.scalar .label t l := reads_scalar .label hw ha hr
  unfold Reader.label
  simp only
  constructor
  · intro h
    split at h
    · cases h
    · next l v hl =>
      split at h
      · cases h
      · next hd =>
        cases h
        obtain ⟨rfl, hscalar⟩ := hlabel.mp hl
        exact ⟨rfl, l, hscalar, hd⟩
  · rintro ⟨rfl, l, hl, hd⟩
    rw [hlabel.mpr ⟨rfl, hl⟩]
    simp only [hd]

/-- What an entry of a tagged object does: the tag fills a slot, and the others are
gathered. -/
def taggedStep (tag : String) (L : Meaning (Decoder α)) (M : Meaning Value) : Step (Tagged α) :=
  fun x k t y => pairStep (slotStep tag L) (gatherStep (· == tag) M) (x.chosen, x.others) k t
    (y.chosen, y.others)

theorem runs_tagged_iff {tag : String} {L : Meaning (Decoder α)} {M : Meaning Value}
    {ms : List (List Char × Tree)} {x y : Tagged α} :
    Runs (taggedStep tag L M) x ms y ↔
      Runs (slotStep tag L) x.chosen ms y.chosen ∧
        Runs (gatherStep (· == tag) M) x.others ms y.others := by
  refine Iff.trans ?_ (runs_pair_iff (x := (x.chosen, x.others)) (y := (y.chosen, y.others)))
  induction ms generalizing x with
  | nil =>
    obtain ⟨c, o⟩ := x
    obtain ⟨c', o'⟩ := y
    simp only [Runs, Tagged.mk.injEq, Prod.mk.injEq]
  | cons m ms ih =>
    constructor
    · rintro ⟨k, z, hk, hstep, hrest⟩
      exact ⟨k, (z.chosen, z.others), hk, hstep, ih.mp hrest⟩
    · rintro ⟨k, ⟨c, o⟩, hk, hstep, hrest⟩
      exact ⟨k, ⟨c, o⟩, hk, hstep, ih.mpr hrest⟩

theorem steps_tagged {tag : String} {label : Reader (Decoder α)} {inner : Reader Value}
    {L : Meaning (Decoder α)} {M : Meaning Value} (hlabel : Reads label L)
    (hinner : Reads inner M) :
    Steps (.tagged tag label inner) (taggedStep tag L M) := by
  intro t k a b w rest u x y hw ha hb hr
  obtain ⟨chosen, others⟩ := x
  obtain ⟨chosen', others'⟩ := y
  unfold MemberReader.tagged taggedStep pairStep slotStep gatherStep
  simp only [beq_iff_eq]
  by_cases hk : k = tag
  · simp only [if_pos hk]
    cases chosen with
    | some d => exact ⟨by rintro ⟨⟩, by rintro ⟨-, ⟨he, -⟩, -⟩; cases he⟩
    | none =>
      simp only [Option.isSome_none, Bool.false_eq_true, if_false]
      constructor
      · intro h
        split at h
        · cases h
        · next hd =>
          cases h
          obtain ⟨rfl, hlab⟩ := (hlabel.afterColon_iff hw ha hb hr).mp hd
          exact ⟨rfl, ⟨trivial, _, hlab, rfl⟩, rfl⟩
      · rintro ⟨rfl, ⟨-, d, hd, rfl⟩, rfl⟩
        rw [(hlabel.afterColon_iff hw ha hb hr).mpr ⟨rfl, hd⟩]
  · simp only [if_neg hk]
    constructor
    · intro h
      split at h
      · cases h
      · next hv =>
        cases h
        obtain ⟨rfl, hm⟩ := (hinner.afterColon_iff hw ha hb hr).mp hv
        exact ⟨rfl, rfl, _, hm, rfl⟩
    · rintro ⟨rfl, rfl, v, hv, rfl⟩
      rw [(hinner.afterColon_iff hw ha hb hr).mpr ⟨rfl, hv⟩]

theorem readTaggedObject_eq_ok_iff {tag : String} {label : Reader (Decoder α)}
    {inner : Reader Value} {s t : List Char} {d : Decoder α} {v : Value} :
    readTaggedObject tag label inner s = .ok ((d, v), t) ↔
      ∃ others, members (.tagged tag label inner) true ⟨none, []⟩ s = .ok (⟨some d, others⟩, t) ∧
        v = .object others.reverse := by
  unfold readTaggedObject
  constructor
  · intro h
    split at h
    · cases h
    · next x _ hm =>
      obtain ⟨chosen, others⟩ := x
      cases chosen with
      | none => cases h
      | some d => cases h; exact ⟨others, hm, rfl⟩
  · rintro ⟨others, hm, rfl⟩
    rw [hm]

theorem readTaggedList_eq_ok_iff {tag : String} {label : Reader (Decoder α)}
    {inner : Reader Value} {s t u : List Char} {d : Decoder α} {v : Value}
    (h : nextItem true s = .ok (.more t)) :
    readTaggedList tag label inner s = .ok ((d, v), u) ↔
      ∃ w vs, label.run t = .ok (d, w) ∧ items inner false [] w = .ok (vs, u) ∧ v = .list vs := by
  unfold readTaggedList
  rw [h]
  simp only
  constructor
  · intro h
    split at h
    · cases h
    · next w hl =>
      split at h
      · cases h
      · next vs _ hi => cases h; exact ⟨w, vs, hl, hi, rfl⟩
  · rintro ⟨w, vs, hl, hi, rfl⟩
    rw [hl]
    simp only [hi]

theorem decodeBody_eq_ok_iff {r : Except Stop ((Decoder α × Value) × List Char)} {a : α}
    {t : List Char} : decodeBody r = .ok (a, t) ↔ ∃ d v, r = .ok ((d, v), t) ∧ d v = .ok a := by
  constructor
  · intro h
    obtain ⟨⟨d, v⟩, hr, hd⟩ := of_decodeBody h
    exact ⟨d, v, hr, hd⟩
  · rintro ⟨d, v, rfl, hd⟩
    exact decodeBody_ok hd

theorem keysRead_others {tag : String} {ms : List (List Char × Tree)} (h : KeysRead ms) :
    KeysRead (Meaning.others tag ms) := fun m hm => h m (List.mem_of_mem_filter hm)

/-- A tagged list is read as a label and a list of values. -/
theorem WritesItems.taggedList_iff {less : Nat} {tag : String} {known : List String}
    {ds : String → Option (Decoder α)} {trees : List Tree} {y : List Char}
    (hy : WritesItems true trees y) {rest u : List Char} {d : Decoder α} {v : Value} :
    closed closeList (readTaggedList tag (.label known ds) (Value.reader less) (y ++ rest)) =
        .ok ((d, v), u) ↔
      u = rest ∧ ∃ l us, trees = l :: us ∧ Meaning.label ds l d ∧
        (Tree.list us).Means (less + 1) v := by
  rw [closed_eq_ok_iff]
  cases hy with
  | nil hb =>
    have hnext : nextItem true (_ ++ ([']'] ++ rest)) = .ok (.ended (']' :: rest)) :=
      nextEntry_closer .list true hb rest
    constructor
    · rintro ⟨s, hs, -⟩
      rw [List.append_assoc] at hs
      unfold readTaggedList at hs
      rw [hnext] at hs
      cases hs
    · rintro ⟨-, _, _, he, -⟩
      cases he
  | @cons _ b c w z l trees hb hc hl hz =>
    have hnext : nextItem true (b ++ (lead true ++ (c ++ (w ++ (z ++ rest))))) =
        .ok (.more (w ++ (z ++ rest))) :=
      nextEntry_spaced .list true hb hc (hl.startsEntry.append (z ++ rest))
    have hlabel : ∀ {d s}, (Reader.label known ds).run (w ++ (z ++ rest)) = .ok (d, s) ↔
        s = z ++ rest ∧ Meaning.label ds l d :=
      reads_label known ds hl blank_nil (hz.endsNumber rest)
    simp only [List.append_assoc, readTaggedList_eq_ok_iff hnext]
    constructor
    · rintro ⟨s, ⟨_, vs, hd, hi, rfl⟩, hclose⟩
      obtain ⟨rfl, hnamed⟩ := hlabel.mp hd
      obtain ⟨_, rfl, hentries⟩ := items_eq_ok_iff.mp hi
      obtain ⟨rfl, hall⟩ := (hz.items_iff (reads_value less)).mp hentries
      rw [closeList_closer] at hclose
      cases hclose
      exact ⟨rfl, l, trees, rfl, hnamed, hall⟩
    · rintro ⟨rfl, _, _, he, hnamed, hm⟩
      cases he
      obtain ⟨-, vs, rfl, hall⟩ := means_of_list hm
      have hentries : Items (Value.reader less) false (z ++ u) vs (']' :: u) :=
        (hz.items_iff (reads_value less)).mpr ⟨rfl, hall⟩
      have hi : items (Value.reader less) false [] (z ++ u) = .ok (vs, ']' :: u) :=
        items_eq_ok_iff.mpr ⟨vs, rfl, hentries⟩
      exact ⟨_, ⟨_, vs, hlabel.mpr ⟨rfl, hnamed⟩, hi, rfl⟩, closeList_closer _⟩

/-- A tagged object is read as the label under the tag and an object of the other values. -/
theorem WritesMembers.taggedObject_iff {less : Nat} {tag : String} {known : List String}
    {ds : String → Option (Decoder α)} {ms : List (List Char × Tree)} {y : List Char}
    (hy : WritesMembers true ms y) {rest u : List Char} {d : Decoder α} {v : Value} :
    closed closeObject (readTaggedObject tag (.label known ds) (Value.reader less) (y ++ rest)) =
        .ok ((d, v), u) ↔
      u = rest ∧ KeysRead ms ∧ ∃ l, valuesOf tag ms = [l] ∧ Meaning.label ds l d ∧
        (Tree.object (Meaning.others tag ms)).Means (less + 1) v := by
  have hloop : ∀ {z : Tagged α} {s : List Char},
      members (.tagged tag (.label known ds) (Value.reader less)) true ⟨none, []⟩ (y ++ rest) =
        .ok (z, s) ↔ s = '\x7d' :: rest ∧
          Runs (taggedStep tag (Meaning.label ds) (Tree.Means less)) ⟨none, []⟩ ms z :=
    hy.members_iff (steps_tagged (reads_label known ds) (reads_value less))
  simp only [closed_eq_ok_iff, readTaggedObject_eq_ok_iff]
  constructor
  · rintro ⟨s, ⟨others, hm, rfl⟩, hclose⟩
    obtain ⟨rfl, hruns⟩ := hloop.mp hm
    obtain ⟨hslot, hgather⟩ := runs_tagged_iff.mp hruns
    obtain ⟨hread, hslot⟩ := runs_slot_iff.mp hslot
    obtain ⟨l, hl, hd⟩ := slot_some hslot
    obtain ⟨-, xs, hothers, hall⟩ := runs_gather_iff.mp hgather
    rw [closeObject_closer] at hclose
    cases hclose
    have hreverse : others = xs.reverse := hothers.trans (List.append_nil _)
    rw [hreverse, List.reverse_reverse]
    exact ⟨rfl, hread, l, hl, hd, hall⟩
  · rintro ⟨rfl, hread, l, hl, hd, hm⟩
    obtain ⟨-, xs, rfl, hall⟩ := means_of_object hm
    have hslot : Slot (Meaning.label ds) (valuesOf tag ms) (some d) := by
      rw [hl]
      exact ⟨d, hd, rfl⟩
    have hruns : Runs (taggedStep tag (Meaning.label ds) (Tree.Means less)) ⟨none, []⟩ ms
        ⟨some d, xs.reverse⟩ :=
      runs_tagged_iff.mpr ⟨runs_slot_iff.mpr ⟨hread, hslot⟩,
        runs_gather_iff.mpr ⟨hread, xs, (List.append_nil _).symm, hall⟩⟩
    refine ⟨_, ⟨xs.reverse, hloop.mpr ⟨rfl, hruns⟩, ?_⟩, closeObject_closer _⟩
    rw [List.reverse_reverse]

/-- Tagged choices are read as their trees say if the records under the labels are decoded
so. -/
theorem reads_tagged {room : Nat} (name tag : String) (known : List String)
    {ds : String → Option (Decoder α)} {Ms : String → Option (Meaning α)}
    (h : Chooses room ds Ms) :
    Reads (.tagged room name tag known ds) (.tagged room tag Ms) := by
  intro t a w rest u x hw ha hr
  unfold Reader.tagged
  cases hw with
  | scalar htoken =>
    constructor
    · intro he
      simp only at he
      split at he
      · cases he
      · cases he
      · next hh => exact (htoken.not_list ha hr hh).elim
      · next hh => exact (htoken.not_object ha hr hh).elim
    · rintro ⟨-, -, ⟨_, _, _, he, -⟩ | ⟨_, _, _, he, -⟩⟩ <;> cases he
  | @list trees y hy =>
    simp only [head_list ha rest]
    by_cases hroom : room = 0
    · rw [if_pos hroom]
      exact ⟨by rintro ⟨⟩, fun hm => absurd hroom hm.2.1⟩
    · obtain ⟨less, rfl⟩ := Nat.exists_eq_succ_of_ne_zero hroom
      simp only [if_neg hroom, decodeBody_eq_ok_iff, Nat.succ_eq_add_one, Nat.add_sub_cancel,
        hy.taggedList_iff]
      constructor
      · rintro ⟨d, v, ⟨rfl, l, us, rfl, hd, hm⟩, hx⟩
        obtain ⟨M, hM, hx⟩ := (h.decode_iff hm).mp ⟨d, hd, hx⟩
        exact ⟨rfl, hroom, .inl ⟨l, us, M, rfl, hM, (readable_list_iff.mp ⟨v, hm⟩).2, hx⟩⟩
      · rintro ⟨rfl, -, ⟨l, us, M, he, hM, hall, hx⟩ | ⟨_, _, _, he, -⟩⟩
        · cases he
          obtain ⟨v, hm⟩ := readable_list_iff.mpr ⟨hroom, hall⟩
          obtain ⟨d, hd, hx⟩ := (h.decode_iff hm).mpr ⟨M, hM, hx⟩
          exact ⟨d, v, ⟨rfl, l, us, rfl, hd, hm⟩, hx⟩
        · cases he
  | @object ms y hy =>
    simp only [head_object ha rest]
    by_cases hroom : room = 0
    · rw [if_pos hroom]
      exact ⟨by rintro ⟨⟩, fun hm => absurd hroom hm.2.1⟩
    · obtain ⟨less, rfl⟩ := Nat.exists_eq_succ_of_ne_zero hroom
      simp only [if_neg hroom, decodeBody_eq_ok_iff, Nat.succ_eq_add_one, Nat.add_sub_cancel,
        hy.taggedObject_iff]
      constructor
      · rintro ⟨d, v, ⟨rfl, hread, l, hl, hd, hm⟩, hx⟩
        obtain ⟨M, hM, hx⟩ := (h.decode_iff hm).mp ⟨d, hd, hx⟩
        exact ⟨rfl, hroom, .inr ⟨ms, l, M, rfl, hread, hl, hM,
          (readable_object_iff.mp ⟨v, hm⟩).2.2, hx⟩⟩
      · rintro ⟨rfl, -, ⟨_, _, _, he, -⟩ | ⟨_, l, M, he, hread, hl, hM, hall, hx⟩⟩
        · cases he
        · cases he
          obtain ⟨v, hm⟩ := readable_object_iff.mpr ⟨hroom, keysRead_others hread, hall⟩
          obtain ⟨d, hd, hx⟩ := (h.decode_iff hm).mpr ⟨M, hM, hx⟩
          exact ⟨d, v, ⟨rfl, hread, l, hl, hd, hm⟩, hx⟩

/-! ### Shapes -/

mutual
/-- **Reading a text is taking the meaning of its tree.** -/
theorem Shape.reads (room : Nat) : {α : Type} → {s : Shape α} → s.Lawful →
    Reads (s.read room) (s.means room)
  | _, .scalar k, _ => by
    rw [Shape.read, Shape.means]
    exact reads_scalar k
  | _, .optional s, h => by
    rw [Shape.Lawful] at h
    rw [Shape.read, Shape.means]
    exact Reads.optional (Shape.reads room h.2)
  | _, .list s, h => by
    rw [Shape.Lawful] at h
    rw [Shape.read, Shape.means]
    exact Reads.list (Shape.reads (room - 1) h)
  | _, .record r, h => by
    rw [Shape.Lawful] at h
    rw [Shape.read, Shape.means]
    exact RecordShape.reads room h
  | _, .tagged name tag variants view, h => by
    rw [Shape.Lawful] at h
    rw [Shape.read, Shape.means]
    exact Reads.map (reads_tagged name tag variants.labels (Variants.decodes room h.2)) view.whole

theorem RecordShape.reads (room : Nat) : {α : Type} → {r : RecordShape α} → r.Lawful →
    Reads (r.read room) (r.means room)
  | _, .mk name fields view, h => by
    rw [RecordShape.Lawful] at h
    rw [RecordShape.read, RecordShape.means]
    refine Reads.map (Reads.record name (Fields.reads (room - 1) h.2) ?_) view.whole
    rw [names_means]
    exact h.1

theorem Fields.reads (room : Nat) : {ts : List Type} → {f : Fields ts} → f.Lawful →
    RowReads (f.read room) (f.means room)
  | _, .nil, _ => trivial
  | _, .cons _ s rest, h => by
    rw [Fields.Lawful] at h
    exact ⟨rfl, Shape.reads room h.1, Fields.reads room h.2⟩
end

/-- A whole text is read as its tree says. -/
theorem Shape.ofText_iff {s : Shape α} (h : s.Lawful) {t : Tree} {source : String}
    (ht : t.Text source) {a : α} : s.ofText source = .ok a ↔ s.means nesting t a := by
  obtain ⟨b, w, c, hb, hw, hc, hsource⟩ := ht
  have hends : EndsNumber c := by
    have hnil := endsNumber_blank hc (r := []) nofun
    rwa [List.append_nil] at hnil
  have hread : ∀ {u} {x : α}, (s.read nesting).run (b ++ (w ++ c)) = .ok (x, u) ↔
      u = c ∧ s.means nesting t x := Shape.reads nesting h hw hb hends
  have hspace : (skipSpace c).isEmpty = true := by
    have hnil := skipSpace_blank (s := []) hc
    rw [List.append_nil] at hnil
    rw [hnil]
    rfl
  unfold Shape.ofText Reader.ofText
  rw [hsource]
  constructor
  · intro he
    split at he
    · cases he
    · next a' ha =>
      cases he
      unfold endOfText at ha
      split at ha
      · cases ha
      · next hrun =>
        obtain ⟨rfl, hm⟩ := hread.mp hrun
        rw [if_pos hspace] at ha
        cases ha
        exact hm
  · intro hm
    rw [hread.mpr ⟨rfl, hm⟩, endOfText, if_pos hspace]

end Json
end ModelStubs
