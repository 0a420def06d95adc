/-
# What is read is the text of a tree

A shape takes no text that could not be passed over (`Json.Shape.passes`): scalars and
brackets are checked more closely when they are read, and members that are no field are
passed over anyway. As all that is passed over is the text of a tree, every text that is
read has a tree (`Json.Shape.exists_text_of_ofText`), and what was read is what the tree
means.

Key theorems: `Json.pass_append`, `Json.Shape.passes`, `Json.Shape.exists_text_of_ofText`.
-/
import ModelStubs.Proofs.Json.ShapeReading

namespace ModelStubs
namespace Json

variable {α β : Type}

/-! ### Brackets below -/

/-- The brackets that were open before are not looked at. -/
theorem pass_append {phase : Phase} {bs : List Bracket} {s u : List Char}
    (h : pass phase bs s = .ok u) (hopened : phase = .opened → bs ≠ []) (es : List Bracket) :
    pass phase (bs ++ es) s = pass .done es u := by
  fun_induction pass phase bs s with
  | case1 => cases h
  | case2 bs s t hp ih =>
    rw [pass_due_scalar hp]
    exact ih h (by simp)
  | case3 bs s b t hp ih =>
    rw [pass_due_opened hp]
    exact ih h (by simp)
  | case4 => cases h; rfl
  | case5 => cases h
  | case6 s b bs t hs ih =>
    rw [← ih h (by simp)]
    exact pass_closer false hs
  | case7 => cases h
  | case8 s b bs t u hk hs _ ih =>
    rw [← ih h (by simp)]
    exact pass_comma hs hk
  | case9 => cases h
  | case10 => exact absurd rfl (hopened rfl)
  | case11 => cases h
  | case12 s b bs t hs ih =>
    rw [← ih h (by simp)]
    exact pass_closer true hs
  | case13 => cases h
  | case14 s b bs c t hs hc u hk ih =>
    rw [← ih h (by simp)]
    exact pass_first hs hc hk

theorem passes_of_passValue {s u : List Char} (h : passValue s = .ok u) (bs : List Bracket) :
    pass .due bs s = pass .done bs u := pass_append h (by simp) bs

/-! ### Readers pass what they read -/

theorem passes_scalar (k : ScalarShape α) : Passes (.scalar k) := by
  intro bs s a rest h
  unfold Reader.scalar at h
  simp only at h
  split at h
  · cases h
  · next hh =>
    split at h
    · cases h
    · cases h; exact pass_due_scalar (passHead_of_scalar hh)
  · cases h
  · cases h

theorem passes_label (known : List String) (choose : String → Option (Decoder α)) :
    Passes (.label known choose) := by
  intro bs s d rest h
  unfold Reader.label at h
  simp only at h
  split at h
  · cases h
  · next l t hl =>
    split at h
    · cases h
    · cases h; exact passes_scalar .label bs s l rest hl

theorem Passes.map {r : Reader α} (hr : Passes r) (f : α → β) : Passes (r.map f) := by
  intro bs s b rest h
  obtain ⟨a, ha, -⟩ := of_mapped h
  exact hr bs s a rest ha

theorem Passes.optional {r : Reader α} (hr : Passes r) : Passes r.optional := by
  intro bs s a rest h
  rw [← pass_due_congr (skipSpace_skipSpace s)]
  unfold Reader.optional at h
  simp only at h
  split at h
  · next hs =>
    obtain ⟨b, hb, -⟩ := of_mapped h
    rw [hs]
    exact hr bs _ b rest hb
  · next c t hs =>
    split at h
    · next hc =>
      split at h
      · cases h
      · next hw =>
        cases h
        refine pass_due_scalar ?_
        rw [hs, hc, passHead, skipSpace_cons rfl]
        show passedScalar (passWord _ _) = _
        rw [hw, passedScalar]
    · obtain ⟨b, hb, -⟩ := of_mapped h
      rw [hs]
      exact hr bs _ b rest hb

theorem Passes.list {room : Nat} {r : Reader α} (hr : Passes r) : Passes (.list room r) := by
  intro bs s as rest h
  unfold Reader.list at h
  simp only at h
  split at h
  · cases h
  · cases h
  · next hh =>
    split at h
    · cases h
    · rw [pass_due_opened (passHead_of_list hh)]
      exact hr.listRest h
  · cases h

/-- The readers of all fields pass what they read. -/
def RowPasses : {ts : List Type} → Row (Entry Reader) ts → Prop
  | [], _ => True
  | _ :: _, (r, rs) => Passes r.body ∧ RowPasses rs

theorem RowPasses.readField : {ts : List Type} → {rs : Row (Entry Reader) ts} → RowPasses rs →
    {x y : Row Option ts} → {k : String} → {s rest : List Char} →
    readField rs x k s = .ok (some (y, rest)) →
    ∃ t, colon s = .ok t ∧ ∀ bs : List Bracket, pass .due bs t = pass .done bs rest
  | [], _, _, _, _, _, _, _, h => by cases h
  | _ :: _, (r, rs), ⟨hr, hrs⟩, (slot, slots), y, k, s, rest, h => by
    simp only [Json.readField] at h
    split at h
    · split at h
      · cases h
      · split at h
        · cases h
        · next a _ ha =>
          cases h
          obtain ⟨t, hcolon, hread⟩ := afterColon_eq_ok_iff.mp ha
          exact ⟨t, hcolon, fun bs => hr bs t a rest hread⟩
    · split at h
      · cases h
      · cases h
      · next hfield => cases h; exact RowPasses.readField hrs hfield

theorem RowPasses.member {ts : List Type} {rs : Row (Entry Reader) ts} (hrs : RowPasses rs) :
    (MemberReader.record rs).Passes := by
  intro x y k s rest h
  unfold MemberReader.record at h
  simp only at h
  split at h
  · cases h
  · next hfield => cases h; exact hrs.readField hfield
  · split at h
    · cases h
    · next hpass =>
      cases h
      unfold passMember at hpass
      split at hpass
      · cases hpass
      · next t hcolon => exact ⟨t, hcolon, fun bs => passes_of_passValue hpass bs⟩

theorem RowPasses.fields {name : String} {total : Nat} : {ts : List Type} →
    {rs : Row (Entry Reader) ts} → RowPasses rs → {index : Nat} → {bs : List Bracket} →
    {s u rest : List Char} → {as : Tuple ts} →
    readFields name total rs index s = .ok (as, u) → closeList u = (none, rest) →
    pass (phaseBefore (index == 0)) (.list :: bs) s = pass .done bs rest
  | [], _, _, index, bs, s, u, rest, as, h, hc => by
    cases h
    exact pass_closer _ (closeList_eq_none_iff.mp hc)
  | _ :: _, (r, rs), ⟨hr, hrs⟩, index, bs, s, u, rest, as, h, hc => by
    simp only [readFields] at h
    split at h
    · cases h
    · next t hn =>
      split at h
      · cases h
      · split at h
        · cases h
        · next hfields =>
          cases h
          obtain ⟨w, hs, rfl⟩ := nextEntry_ended_iff.mp (nextItem_eq _ s ▸ hn)
          have hclosed : skipSpace (']' :: w) = Bracket.list.closer :: w := skipSpace_cons rfl w
          have hafter : pass .done (.list :: bs) (']' :: w) = pass .done bs rest :=
            RowPasses.fields hrs hfields hc
          exact (pass_closer _ hs).trans ((pass_closer false hclosed).symm.trans hafter)
    · next t hn =>
      split at h
      · cases h
      · next a v hv =>
        split at h
        · cases h
        · next hfields =>
          cases h
          rw [pass_next (b := .list) hn rfl, hr _ _ _ _ hv]
          exact RowPasses.fields hrs hfields hc

theorem Passes.record {room : Nat} {name : String} {ts : List Type} {rs : Row (Entry Reader) ts}
    (hrs : RowPasses rs) : Passes (.record room name rs) := by
  intro bs s as rest h
  unfold Reader.record at h
  simp only at h
  split at h
  · cases h
  · cases h
  · next hh =>
    split at h
    · cases h
    · obtain ⟨u, hu, hc⟩ := of_closed h
      rw [pass_due_opened (passHead_of_list hh)]
      exact RowPasses.fields hrs hu hc
  · next hh =>
    split at h
    · cases h
    · obtain ⟨u, hu, hc⟩ := of_closed h
      obtain ⟨slots, hm, -⟩ := readMembers_eq_ok_iff.mp hu
      rw [pass_due_opened (passHead_of_object hh)]
      exact pass_members hrs.member hm hc

theorem passes_tagged_member {tag : String} {label : Reader (Decoder α)} {inner : Reader Value}
    (hlabel : Passes label) (hinner : Passes inner) :
    (MemberReader.tagged tag label inner).Passes := by
  intro x y k s rest h
  unfold MemberReader.tagged at h
  simp only at h
  split at h
  · split at h
    · cases h
    · split at h
      · cases h
      · next hd =>
        cases h
        obtain ⟨t, hcolon, hread⟩ := afterColon_eq_ok_iff.mp hd
        exact ⟨t, hcolon, fun bs => hlabel bs t _ rest hread⟩
  · split at h
    · cases h
    · next hv =>
      cases h
      obtain ⟨t, hcolon, hread⟩ := afterColon_eq_ok_iff.mp hv
      exact ⟨t, hcolon, fun bs => hinner bs t _ rest hread⟩

theorem passes_tagged {room : Nat} (name tag : String) (known : List String)
    (choose : String → Option (Decoder α)) : Passes (.tagged room name tag known choose) := by
  intro bs s a rest h
  unfold Reader.tagged at h
  simp only at h
  split at h
  · cases h
  · cases h
  · next t hh =>
    split at h
    · cases h
    · obtain ⟨d, v, hbody, -⟩ := decodeBody_eq_ok_iff.mp h
      obtain ⟨u, hu, hc⟩ := of_closed hbody
      rw [pass_due_opened (passHead_of_list hh)]
      cases hn : nextItem true t with
      | error e => simp only [readTaggedList, hn] at hu; cases hu
      | ok x =>
        cases x with
        | ended y => simp only [readTaggedList, hn] at hu; cases hu
        | more y =>
          obtain ⟨w, vs, hl, hi, -⟩ := (readTaggedList_eq_ok_iff hn).mp hu
          obtain ⟨_, -, hentries⟩ := items_eq_ok_iff.mp hi
          have hkey : passKey .list y = .ok y := rfl
          have hfirst : pass (phaseBefore true) (.list :: bs) t = pass .due (.list :: bs) y :=
            pass_next hn hkey
          show pass (phaseBefore true) (.list :: bs) t = pass .done bs _
          rw [hfirst, passes_label known choose _ _ _ _ hl]
          exact pass_items (passes_value (room - 1)) hentries hc
  · next hh =>
    split at h
    · cases h
    · obtain ⟨d, v, hbody, -⟩ := decodeBody_eq_ok_iff.mp h
      obtain ⟨u, hu, hc⟩ := of_closed hbody
      obtain ⟨others, hm, -⟩ := readTaggedObject_eq_ok_iff.mp hu
      rw [pass_due_opened (passHead_of_object hh)]
      exact pass_members
        (passes_tagged_member (passes_label known choose) (passes_value (room - 1))) hm hc

/-! ### Shapes -/

mutual
/-- What a shape reads can be passed over. -/
theorem Shape.passes (room : Nat) : {α : Type} → (s : Shape α) → Passes (s.read room)
  | _, .scalar k => by
    rw [Shape.read]
    exact passes_scalar k
  | _, .optional s => by
    rw [Shape.read]
    exact (s.passes room).optional
  | _, .list s => by
    rw [Shape.read]
    exact (s.passes (room - 1)).list
  | _, .record r => by
    rw [Shape.read]
    exact r.passes room
  | _, .tagged name tag variants view => by
    rw [Shape.read]
    exact (passes_tagged name tag variants.labels variants.choose).map view.whole

theorem RecordShape.passes (room : Nat) : {α : Type} → (r : RecordShape α) →
    Passes (r.read room)
  | _, .mk name fields view => by
    rw [RecordShape.read]
    exact (Passes.record (fields.passes (room - 1))).map view.whole

theorem Fields.passes (room : Nat) : {ts : List Type} → (f : Fields ts) →
    RowPasses (f.read room)
  | _, .nil => trivial
  | _, .cons _ s rest => ⟨s.passes room, rest.passes room⟩
end

/-- **Every text that is read has a tree.** -/
theorem Shape.exists_text_of_ofText {s : Shape α} {source : String} {a : α}
    (h : s.ofText source = .ok a) : ∃ t : Tree, t.Text source := by
  unfold Shape.ofText Reader.ofText at h
  split at h
  · cases h
  · next ha =>
    unfold endOfText at ha
    split at ha
    · cases ha
    · next u hrun =>
      split at ha
      · next hempty =>
        have hpass : passValue source.toList = .ok u := by
          rw [passValue, s.passes nesting [] _ _ _ hrun, pass]
        obtain ⟨b, t, w, hb, hsource, hw⟩ := exists_writes_of_passValue hpass
        obtain ⟨c, hc, hu⟩ := exists_blank u
        rw [List.isEmpty_iff.mp hempty, List.append_nil] at hu
        exact ⟨t, b, w, u, hb, hw, hu ▸ hc, hsource⟩
      · cases ha

end Json
end ModelStubs
