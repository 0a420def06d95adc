/-
# Passing over what can be read

Passing over a value checks less than reading it: whatever spells a value is passed,
and the text that is left is the same (`Json.passValue_of_spells`). The stack of open
brackets plays no part in that, since a value that was read has closed all brackets
that it opened. The loops over entries pass what they read if the readers of the entries
do (`Json.pass_items`, `Json.pass_members`).

Key definitions: `Json.Begins`, `Json.Passes`, `Json.MemberReader.Passes`.
Key theorems: `Json.begins_of_head`, `Json.passQuoted_of_quoted`, `Json.passHead_of_scalar`,
`Json.pass_items`, `Json.pass_members`, `Json.pass_of_spells`, `Json.passValue_of_spells`.
-/
import ModelStubs.Proofs.Json.Spellings

namespace ModelStubs
namespace Json

/-! ### Scalars -/

theorem scanWhole_cause {e e' : Cause} {s : List Char} {x : List Char × List Char}
    (h : scanWhole e s = .ok x) : scanWhole e' s = .ok x := by
  cases s with
  | nil => cases h
  | cons c s => exact h

theorem scanFraction_cause {e e' : Cause} {s : List Char} {x : List Char × List Char}
    (h : scanFraction e s = .ok x) : scanFraction e' s = .ok x := by
  cases s with
  | nil => exact h
  | cons c s =>
    rw [scanFraction] at h ⊢
    by_cases hc : c = '.'
    · rw [if_pos hc] at h ⊢
      split at h
      · cases h
      · next hd => rw [if_neg hd, h]
    · rw [if_neg hc] at h ⊢
      exact h

theorem scanExponent_cause {e e' : Cause} {s : List Char}
    {x : Option (Bool × List Char) × List Char} (h : scanExponent e s = .ok x) :
    scanExponent e' s = .ok x := by
  cases s with
  | nil => exact h
  | cons c s =>
    rw [scanExponent] at h ⊢
    by_cases hc : c = 'e' ∨ c = 'E'
    · rw [if_pos hc] at h ⊢
      simp only at h ⊢
      split at h
      · cases h
      · next hd => rw [if_neg hd, h]
    · rw [if_neg hc] at h ⊢
      exact h

/-- A number is scanned alike whatever is said if the text ends inside it. -/
theorem scan_cause {e e' : Cause} {s : List Char} {x : Literal × List Char}
    (h : Literal.scan e s = .ok x) : Literal.scan e' s = .ok x := by
  unfold Literal.scan at h ⊢
  split at h
  split at h
  · cases h
  · next hw =>
    simp only [scanWhole_cause hw]
    split at h
    · cases h
    · next hf =>
      simp only [scanFraction_cause hf]
      split at h
      · cases h
      · next hx =>
        simp only [scanExponent_cause hx]
        exact h

theorem passQuoted_backslash {r t : List Char} (h : passEscape r = .ok t) :
    passQuoted ('\\' :: r) = passQuoted t := by
  rw [passQuoted, if_neg (by decide), if_pos rfl]
  split
  · next he =>
    rw [h] at he
    cases he
  · next he =>
    rw [h] at he
    cases he
    rfl

theorem passQuoted_group {s t : List Char} {n : Nat} (h : hexGroup s = .ok (n, t)) :
    passQuoted ('\\' :: 'u' :: s) = passQuoted t := by
  refine passQuoted_backslash ?_
  rw [passEscape, if_pos rfl, h]

/-- The second half of a character is a group of digits behind a backslash and a `u`. -/
theorem secondHalf_eq_ok {n : Nat} {s t : List Char} {d : Char}
    (h : secondHalf n s = .ok (d, t)) :
    ∃ r m, s = '\\' :: 'u' :: r ∧ hexGroup r = .ok (m, t) := by
  unfold secondHalf at h
  split at h
  · split at h
    · next ha =>
      split at h
      · next r hb =>
        split at h
        · cases h
        · next m u hm =>
          split at h
          · have ht : u = t := by
              simp only [Except.ok.injEq, Prod.mk.injEq] at h
              exact h.2
            exact ⟨r, m, by rw [ha, hb], ht ▸ hm⟩
          · cases h
      · cases h
    · cases h
  · cases h
  · cases h

/-- A character is spelled by one group of digits or by two. -/
theorem codePoint_eq_ok {s t : List Char} {d : Char} (h : codePoint s = .ok (d, t)) :
    ∃ n u, hexGroup s = .ok (n, u) ∧
      (t = u ∨ ∃ r m, u = '\\' :: 'u' :: r ∧ hexGroup r = .ok (m, t)) := by
  unfold codePoint at h
  split at h
  · cases h
  · next n u hn =>
    refine ⟨n, u, hn, ?_⟩
    split at h
    · cases h
    · split at h
      · exact .inr (secondHalf_eq_ok h)
      · cases h
        exact .inl rfl

/-- An escape that stands for a character is passed; one of two groups of digits is
passed group by group. -/
theorem passQuoted_escape {r t : List Char} {d : Char} (h : escape r = .ok (d, t)) :
    passQuoted ('\\' :: r) = passQuoted t := by
  cases r with
  | nil => cases h
  | cons c s =>
    rw [escape] at h
    by_cases hc : c = 'u'
    · rw [if_pos hc] at h
      subst hc
      obtain ⟨n, u, hn, rfl | ⟨r, m, rfl, hm⟩⟩ := codePoint_eq_ok h
      · exact passQuoted_group hn
      · rw [passQuoted_group hn, passQuoted_group hm]
    · rw [if_neg hc] at h
      refine passQuoted_backslash ?_
      rw [passEscape, if_neg hc]
      split at h
      · next hd =>
        cases h
        rw [hd]
        rfl
      · cases h

/-- A quoted text that can be read is passed. -/
theorem passQuoted_of_quoted {done s t u : List Char} (h : quoted done s = .ok (t, u)) :
    passQuoted s = .ok u := by
  fun_induction quoted done s with
  | case1 => cases h
  | case2 => cases h; rw [passQuoted, if_pos rfl]
  | case3 => cases h
  | case4 done r d t' he _ ih => rw [passQuoted_escape he, ih h]
  | case5 => cases h
  | case6 done c r hq hb hc ih => rw [passQuoted, if_neg hq, if_neg hb, if_neg hc, ih h]

/-- How the head of a value comes about: by what the text starts with behind its
spaces. -/
inductive Begins (s : List Char) : Head → Prop
  | null {t rest : List Char} : skipSpace s = 'n' :: t →
      passWord ['u', 'l', 'l'] t = .ok rest → Begins s (.scalar .null rest)
  | yes {t rest : List Char} : skipSpace s = 't' :: t →
      passWord ['r', 'u', 'e'] t = .ok rest → Begins s (.scalar (.flag true) rest)
  | no {t rest : List Char} : skipSpace s = 'f' :: t →
      passWord ['a', 'l', 's', 'e'] t = .ok rest → Begins s (.scalar (.flag false) rest)
  | number {c : Char} {t rest : List Char} {n : Number} : skipSpace s = c :: t →
      c = '-' ∨ c.isDigit = true → readNumber (c :: t) = .ok (n, rest) →
      Begins s (.scalar (.number n) rest)
  | text {t cs rest : List Char} : skipSpace s = '"' :: t → quoted [] t = .ok (cs, rest) →
      Begins s (.scalar (.text (String.ofList cs)) rest)
  | list {t : List Char} : skipSpace s = '[' :: t → Begins s (.list t)
  | object {t : List Char} : skipSpace s = '\x7b' :: t → Begins s (.object t)

theorem wordHead_eq_ok {v : Scalar} {w s : List Char} {x : Head} (h : wordHead v w s = .ok x) :
    ∃ rest, passWord w s = .ok rest ∧ x = .scalar v rest := by
  unfold wordHead at h
  split at h
  · cases h
  · next t ht => cases h; exact ⟨t, ht, rfl⟩

/-- The head of a value says what the text starts with. -/
theorem begins_of_head {s : List Char} {x : Head} (h : head s = .ok x) : Begins s x := by
  unfold head headOf at h
  split at h
  · cases h
  · next c t ht =>
    by_cases hn : c = 'n'
    · rw [if_pos hn] at h
      obtain ⟨rest, hw, rfl⟩ := wordHead_eq_ok h
      exact .null (by rw [ht, hn]) hw
    rw [if_neg hn] at h
    by_cases htrue : c = 't'
    · rw [if_pos htrue] at h
      obtain ⟨rest, hw, rfl⟩ := wordHead_eq_ok h
      exact .yes (by rw [ht, htrue]) hw
    rw [if_neg htrue] at h
    by_cases hf : c = 'f'
    · rw [if_pos hf] at h
      obtain ⟨rest, hw, rfl⟩ := wordHead_eq_ok h
      exact .no (by rw [ht, hf]) hw
    rw [if_neg hf] at h
    by_cases hd : c = '-' ∨ c.isDigit = true
    · rw [if_pos hd] at h
      unfold numberHead at h
      split at h
      · cases h
      · next hr => cases h; exact .number ht hd hr
    rw [if_neg hd] at h
    by_cases hq : c = '"'
    · rw [if_pos hq] at h
      unfold textHead at h
      split at h
      · cases h
      · next hr => cases h; exact .text (by rw [ht, hq]) hr
    rw [if_neg hq] at h
    by_cases hl : c = '['
    · rw [if_pos hl] at h
      cases h
      exact .list (by rw [ht, hl])
    rw [if_neg hl] at h
    by_cases ho : c = '\x7b'
    · rw [if_pos ho] at h
      cases h
      exact .object (by rw [ht, ho])
    · rw [if_neg ho] at h
      cases h

theorem passNumber_of_readNumber {s rest : List Char} {n : Number}
    (h : readNumber s = .ok (n, rest)) : passNumber s = .ok rest := by
  unfold readNumber at h
  split at h
  · cases h
  · next hl =>
    split at h
    · cases h
    · cases h
      rw [passNumber, scan_cause hl]

/-- A scalar that can be read is passed. -/
theorem passHead_of_scalar {s rest : List Char} {v : Scalar} (h : head s = .ok (.scalar v rest)) :
    passHead s = .ok (.scalar rest) := by
  unfold passHead
  cases begins_of_head h with
  | null hs hw =>
    rw [hs]
    show passedScalar (passWord _ _) = _
    rw [hw, passedScalar]
  | yes hs hw =>
    rw [hs]
    show passedScalar (passWord _ _) = _
    rw [hw, passedScalar]
  | no hs hw =>
    rw [hs]
    show passedScalar (passWord _ _) = _
    rw [hw, passedScalar]
  | @number c _ _ _ hs hd hr =>
    have hne : ∀ d : Char, d ≠ '-' → d.isDigit = false → c ≠ d := by
      intro d h1 h2 e
      subst e
      rcases hd with hd | hd
      · exact h1 hd
      · rw [h2] at hd
        cases hd
    rw [hs]
    simp only
    rw [if_neg (hne 'n' (by decide) rfl), if_neg (hne 't' (by decide) rfl),
      if_neg (hne 'f' (by decide) rfl), if_pos hd, passNumber_of_readNumber hr, passedScalar]
  | text hs hq =>
    rw [hs]
    show passedScalar (passQuoted _) = _
    rw [passQuoted_of_quoted hq, passedScalar]

/-! ### Brackets -/

theorem skipSpace_of_list {s t : List Char} (h : head s = .ok (.list t)) :
    skipSpace s = '[' :: t := by
  cases begins_of_head h with
  | list hs => exact hs

theorem skipSpace_of_object {s t : List Char} (h : head s = .ok (.object t)) :
    skipSpace s = '\x7b' :: t := by
  cases begins_of_head h with
  | object hs => exact hs

theorem passHead_of_list {s t : List Char} (h : head s = .ok (.list t)) :
    passHead s = .ok (.opened .list t) := by
  unfold passHead
  rw [skipSpace_of_list h]
  rfl

theorem passHead_of_object {s t : List Char} (h : head s = .ok (.object t)) :
    passHead s = .ok (.opened .object t) := by
  unfold passHead
  rw [skipSpace_of_object h]
  rfl

/-- The phase before the first entry of a bracket, and before another. -/
def phaseBefore (first : Bool) : Phase := if first then .opened else .done

theorem pass_due_scalar {bs : List Bracket} {s t : List Char} (h : passHead s = .ok (.scalar t)) :
    pass .due bs s = pass .done bs t := by
  rw [pass]
  split
  · next he => rw [h] at he; cases he
  · next he => rw [h] at he; cases he; rfl
  · next he => rw [h] at he; cases he

theorem pass_due_opened {bs : List Bracket} {b : Bracket} {s t : List Char}
    (h : passHead s = .ok (.opened b t)) : pass .due bs s = pass .opened (b :: bs) t := by
  rw [pass]
  split
  · next he => rw [h] at he; cases he
  · next he => rw [h] at he; cases he
  · next he => rw [h] at he; cases he; rfl

theorem pass_closer {b : Bracket} {bs : List Bracket} (first : Bool) {s t : List Char}
    (h : skipSpace s = b.closer :: t) : pass (phaseBefore first) (b :: bs) s = pass .done bs t := by
  cases first with
  | true =>
    show pass .opened (b :: bs) s = _
    rw [pass]
    split
    · next he => rw [h] at he; cases he
    · next he =>
      rw [h] at he
      cases he
      rw [if_pos rfl]
  | false =>
    show pass .done (b :: bs) s = _
    rw [pass]
    split
    · next he => rw [h] at he; cases he
    · next he =>
      rw [h] at he
      cases he
      rw [if_pos rfl]

theorem pass_first {b : Bracket} {bs : List Bracket} {s t u : List Char} {c : Char}
    (h : skipSpace s = c :: t) (hc : c ≠ b.closer) (hk : passKey b (c :: t) = .ok u) :
    pass .opened (b :: bs) s = pass .due (b :: bs) u := by
  conv => lhs; rw [pass]
  split
  · next he => rw [h] at he; cases he
  · next he =>
    rw [h] at he
    cases he
    rw [if_neg hc]
    split
    · next hx => rw [hk] at hx; cases hx
    · next hx => rw [hk] at hx; cases hx; rfl

theorem pass_comma {b : Bracket} {bs : List Bracket} {s t u : List Char}
    (h : skipSpace s = ',' :: t) (hk : passKey b t = .ok u) :
    pass .done (b :: bs) s = pass .due (b :: bs) u := by
  have hc := closer_ne_comma b
  conv => lhs; rw [pass]
  split
  · next he => rw [h] at he; cases he
  · next he =>
    rw [h] at he
    cases he
    rw [if_neg hc, if_pos rfl]
    split
    · next hx => rw [hk] at hx; cases hx
    · next hx => rw [hk] at hx; cases hx; rfl

/-! ### Entries -/

/-- Spaces before a value make no difference. -/
theorem head_congr {s t : List Char} (h : skipSpace s = skipSpace t) : head s = head t := by
  unfold head
  rw [h]

theorem passHead_congr {s t : List Char} (h : skipSpace s = skipSpace t) :
    passHead s = passHead t := by
  unfold passHead
  rw [h]

theorem pass_due_congr {bs : List Bracket} {s t : List Char} (h : skipSpace s = skipSpace t) :
    pass .due bs s = pass .due bs t := by
  have hs := passHead_congr h
  cases ht : passHead t with
  | error e =>
    rw [ht] at hs
    rw [pass, pass]
    split
    · next he =>
      rw [hs] at he
      cases he
      split
      · next hf => rw [ht] at hf; cases hf; rfl
      · next hf => rw [ht] at hf; cases hf
      · next hf => rw [ht] at hf; cases hf
    · next he => rw [hs] at he; cases he
    · next he => rw [hs] at he; cases he
  | ok x =>
    rw [ht] at hs
    cases x with
    | scalar u => rw [pass_due_scalar hs, pass_due_scalar ht]
    | opened b u => rw [pass_due_opened hs, pass_due_opened ht]

/-- A key that was read is passed, with the colon behind it. -/
theorem passKey_of_keyText {s t u : List Char} {k : String} (hk : keyText s = .ok (k, t))
    (hc : colon t = .ok u) : passKey .object s = .ok u := by
  unfold keyText at hk
  split at hk
  · cases hk
  · split at hk
    · next hquote =>
      subst hquote
      split at hk
      · cases hk
      · next hq =>
        cases hk
        have hs : ∀ w, skipSpace ('"' :: w) = '"' :: w := skipSpace_cons rfl
        unfold passKey
        simp only [hs, if_true, passQuoted_of_quoted hq, hc]
    · cases hk

theorem passKey_congr {s t : List Char} (h : skipSpace s = skipSpace t) :
    passKey .object s = passKey .object t := by
  unfold passKey
  simp only [h]

/-- Before an entry the reader and the one that passes go on at the same place. -/
theorem pass_next {b : Bracket} {bs : List Bracket} {first : Bool} {s t u : List Char}
    (h : nextEntry b first s = .ok (.more t)) (hk : passKey b t = .ok u) :
    pass (phaseBefore first) (b :: bs) s = pass .due (b :: bs) u := by
  obtain ⟨ht, ⟨rfl, hs, c, w, rfl, hc⟩ | ⟨rfl, w, hs, hw⟩⟩ := nextEntry_more h
  · exact pass_first hs hc hk
  · have hspace : skipSpace w = skipSpace t := hw.trans ht.symm
    show pass .done (b :: bs) s = _
    cases b with
    | list =>
      cases hk
      rw [pass_comma hs rfl]
      exact pass_due_congr hspace
    | object =>
      refine pass_comma hs ?_
      rw [passKey_congr hspace]
      exact hk

theorem closeList_eq_none_iff {s t : List Char} :
    closeList s = (none, t) ↔ skipSpace s = ']' :: t := by
  unfold closeList
  constructor
  · intro h
    split at h
    · cases h
    · next c u hs =>
      split at h
      · next hc => cases h; rw [hs, hc]
      · split at h <;> cases h
  · intro h
    rw [h]
    exact if_pos rfl

theorem closeObject_eq_none_iff {s t : List Char} :
    closeObject s = (none, t) ↔ skipSpace s = '\x7d' :: t := by
  unfold closeObject
  constructor
  · intro h
    split at h
    · cases h
    · next c u hs =>
      split at h
      · next hc => cases h; rw [hs, hc]
      · cases h
  · intro h
    rw [h]
    exact if_pos rfl

/-- What the reader takes is passed, inside any open brackets. -/
def Passes {α : Type} (r : Reader α) : Prop :=
  ∀ (bs : List Bracket) (s : List Char) (a : α) (rest : List Char), r.run s = .ok (a, rest) →
    pass .due bs s = pass .done bs rest

/-- What the reader takes of a member is a colon and a value that is passed. -/
def MemberReader.Passes {σ : Type} (m : MemberReader σ) : Prop :=
  ∀ (x y : σ) (k : String) (s rest : List Char), m.run x k s = .ok (y, rest) →
    ∃ t, colon s = .ok t ∧ ∀ bs : List Bracket, pass .due bs t = pass .done bs rest

theorem pass_items {α : Type} {r : Reader α} (hr : Passes r) {bs : List Bracket} {first : Bool}
    {s u rest : List Char} {as : List α} (h : Items r first s as u)
    (hc : closeList u = (none, rest)) :
    pass (phaseBefore first) (.list :: bs) s = pass .done bs rest := by
  induction h with
  | @nil first s t hn =>
    obtain ⟨w, hs, rfl⟩ := nextEntry_ended_iff.mp (nextItem_eq first s ▸ hn)
    have hw := closeList_eq_none_iff.mp hc
    rw [skipSpace_cons rfl] at hw
    cases hw
    exact pass_closer first hs
  | cons hn hv _ ih =>
    rw [pass_next (b := .list) hn rfl, hr _ _ _ _ hv]
    exact ih hc

theorem pass_members {σ : Type} {m : MemberReader σ} (hm : m.Passes) {bs : List Bracket}
    {first : Bool} {x y : σ} {s u rest : List Char} (h : members m first x s = .ok (y, u))
    (hc : closeObject u = (none, rest)) :
    pass (phaseBefore first) (.object :: bs) s = pass .done bs rest := by
  fun_induction members m first x s with
  | case1 => cases h
  | case2 first x s t hn =>
    cases h
    obtain ⟨w, hs, rfl⟩ := nextEntry_ended_iff.mp (nextMember_eq first s ▸ hn)
    have hw := closeObject_eq_none_iff.mp hc
    rw [skipSpace_cons rfl] at hw
    cases hw
    exact pass_closer first hs
  | case3 => cases h
  | case4 => cases h
  | case5 first x s t hn k u hk y v hrun ih =>
    obtain ⟨w, hcolon, hpass⟩ := hm _ _ _ _ _ hrun
    rw [pass_next (b := .object) hn (passKey_of_keyText hk hcolon), hpass]
    exact ih h

/-! ### Values -/

theorem Passes.collect {α : Type} {r : Reader α} (hr : Passes r) :
    (MemberReader.collect r).Passes := by
  intro xs ys k s rest h
  obtain ⟨a, ha, -⟩ := collect_run_eq_ok_iff.mp h
  obtain ⟨t, hcolon, hread⟩ := afterColon_eq_ok_iff.mp ha
  exact ⟨t, hcolon, fun bs => hr bs t a rest hread⟩

theorem Passes.objectRest {α : Type} {r : Reader α} (hr : Passes r) {bs : List Bracket}
    {s rest : List Char} {ms : List (String × α)} (h : objectRest r s = .ok (ms, rest)) :
    pass .opened (.object :: bs) s = pass .done bs rest := by
  obtain ⟨_, h, -⟩ := of_mapped h
  obtain ⟨u, hu, hc⟩ := of_closed h
  exact pass_members hr.collect hu hc

theorem Passes.listRest {α : Type} {r : Reader α} (hr : Passes r) {bs : List Bracket}
    {s rest : List Char} {as : List α} (h : listRest r s = .ok (as, rest)) :
    pass .opened (.list :: bs) s = pass .done bs rest := by
  obtain ⟨u, hu, hc⟩ := listRest_eq_ok_iff.mp h
  exact pass_items hr hu hc

/-- What spells a value is passed if what stands in its brackets is. -/
theorem passes_value_step {room : Nat}
    (h : ∀ less, room = less + 1 → Passes (Value.reader less)) : Passes (Value.reader room) := by
  intro bs s v rest hv
  cases value_reader_eq_ok_iff.mp hv with
  | scalar hh => exact pass_due_scalar (passHead_of_scalar hh)
  | list hh hs hc =>
    rw [pass_due_opened (passHead_of_list hh)]
    exact (h _ rfl).listRest (listRest_eq_ok_iff.mpr ⟨_, hs, hc⟩)
  | object hh hs hc =>
    rw [pass_due_opened (passHead_of_object hh)]
    exact (h _ rfl).objectRest (objectRest_eq_ok_iff.mpr ⟨_, hs, hc⟩)

theorem passes_value (room : Nat) : Passes (Value.reader room) := by
  induction room with
  | zero => exact passes_value_step fun _ h => absurd h (by omega)
  | succ room ih =>
    refine passes_value_step fun less h => ?_
    cases h
    exact ih

/-- What spells a value is passed, inside any open brackets. -/
theorem pass_of_spells {room : Nat} {bs : List Bracket} {s rest : List Char} {v : Value}
    (h : Spells room s v rest) : pass .due bs s = pass .done bs rest :=
  passes_value room bs s v rest (value_reader_eq_ok_iff.mpr h)

/-- **What can be read can be passed over.** Passing over a value leaves the same text
as reading it. -/
theorem passValue_of_spells {room : Nat} {s rest : List Char} {v : Value}
    (h : Spells room s v rest) : passValue s = .ok rest := by
  rw [passValue, pass_of_spells h, pass]

end Json
end ModelStubs
