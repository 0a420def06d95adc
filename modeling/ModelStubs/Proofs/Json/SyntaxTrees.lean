/-
# Syntax trees of texts

A text is cut into its tokens, and the tree keeps them as they are spelled: a scalar and
a key with all their escapes and digits, but no spaces. What is passed over need not
spell a value: a number may be too large and an escape may be half a character, so that
tokens and not values stand at the leaves.

`Json.Tree.Writes` is the grammar. A text that is written by a tree is passed over
whatever stands around it (`Json.Tree.Writes.pass`), and every text that is passed over
is written by some tree (`Json.exists_writes_of_passValue`).

Key definitions: `Json.Tree`, `Json.IsToken`, `Json.IsKey`, `Json.Tree.Writes`,
`Json.Tree.Text`.
Key theorems: `Json.Tree.Writes.pass`, `Json.exists_writes_of_passValue`.
-/
import ModelStubs.Proofs.Json.Tokens

namespace ModelStubs
namespace Json

/-! ### Trees and their texts -/

/-- A value as it is spelled: scalars and keys are kept as texts, quotes included. -/
inductive Tree
  | scalar (token : List Char)
  | list (ts : List Tree)
  | object (ms : List (List Char × Tree))

/-- The text is a scalar and nothing else. -/
def IsToken (w : List Char) : Prop := StartsEntry w ∧ passHead w = .ok (.scalar [])

/-- The text is a quoted string and nothing else. -/
def IsKey (k : List Char) : Prop := ∃ q, k = '"' :: q ∧ passQuoted q = .ok []

mutual
/-- The text is spelled by the tree, with any spaces between its tokens. -/
inductive Tree.Writes : Tree → List Char → Prop
  | scalar {w : List Char} : IsToken w → Tree.Writes (.scalar w) w
  | list {ts : List Tree} {x : List Char} : WritesItems true ts x →
      Tree.Writes (.list ts) ('[' :: x)
  | object {ms : List (List Char × Tree)} {x : List Char} : WritesMembers true ms x →
      Tree.Writes (.object ms) ('\x7b' :: x)

/-- The text is that of the entries of a list with the closing bracket. -/
inductive WritesItems : Bool → List Tree → List Char → Prop
  | nil {first : Bool} {a : List Char} : Blank a → WritesItems first [] (a ++ [']'])
  | cons {first : Bool} {a b w x : List Char} {t : Tree} {ts : List Tree} : Blank a → Blank b →
      Tree.Writes t w → WritesItems false ts x →
      WritesItems first (t :: ts) (a ++ (lead first ++ (b ++ (w ++ x))))

/-- The text is that of the entries of an object with the closing bracket. -/
inductive WritesMembers : Bool → List (List Char × Tree) → List Char → Prop
  | nil {first : Bool} {a : List Char} : Blank a → WritesMembers first [] (a ++ ['\x7d'])
  | cons {first : Bool} {a b c d k w x : List Char} {t : Tree} {ms : List (List Char × Tree)} :
      Blank a → Blank b → IsKey k → Blank c → Blank d → Tree.Writes t w →
      WritesMembers false ms x →
      WritesMembers first ((k, t) :: ms)
        (a ++ (lead first ++ (b ++ (k ++ (c ++ ':' :: (d ++ (w ++ x)))))))
end

/-- The string is the text of the tree with any spaces around it. -/
def Tree.Text (t : Tree) (source : String) : Prop :=
  ∃ a w b, Blank a ∧ t.Writes w ∧ Blank b ∧ source.toList = a ++ (w ++ b)

/-! ### Tokens and keys -/

theorem blank_nil : Blank [] := List.forall_mem_nil _

/-- A text that starts an entry starts with no space. -/
theorem eq_nil_of_blank {a x : List Char} (ha : Blank a) (h : StartsEntry (a ++ x)) : a = [] := by
  cases a with
  | nil => rfl
  | cons c a =>
    obtain ⟨d, _, hd, hspace, -⟩ := h
    cases hd
    rw [ha c List.mem_cons_self] at hspace
    cases hspace

/-- A scalar that is passed is a token behind spaces. -/
theorem exists_token_of_passHead {s u : List Char} (h : passHead s = .ok (.scalar u)) :
    ∃ a w, Blank a ∧ s = a ++ (w ++ u) ∧ IsToken w := by
  obtain ⟨a, w, ha, hs, hstart, hw⟩ := passHead_scalar_local h
  have hnil := hw [] fun _ hc => nomatch hc
  rw [List.append_nil] at hnil
  exact ⟨a, w, ha, hs, hstart, hnil⟩

/-- A token is passed whatever follows it. -/
theorem IsToken.passHead {w r : List Char} (h : IsToken w) (hr : EndsNumber r) :
    passHead (w ++ r) = .ok (.scalar r) := by
  obtain ⟨a, v, ha, hw, hv, hpass⟩ := passHead_scalar_local h.2
  rw [List.append_nil] at hw
  obtain rfl := eq_nil_of_blank ha (hw ▸ h.1)
  rw [hw]
  exact hpass r hr

/-- What is read at a token is the scalar that it spells, and all of it. -/
theorem IsToken.head_eq_ok_iff {w r : List Char} (h : IsToken w) (hr : EndsNumber r) {x : Head} :
    head (w ++ r) = .ok x ↔ ∃ v, x = .scalar v r ∧ head w = .ok (.scalar v []) := by
  have hpass := h.passHead hr
  constructor
  · intro hx
    cases x with
    | scalar v u =>
      rw [passHead_of_scalar hx] at hpass
      cases hpass
      obtain ⟨a, v', ha, hw, -, hread⟩ := head_scalar_local hx
      obtain rfl := eq_nil_of_blank ha (hw ▸ h.1.append r)
      obtain rfl := List.append_cancel_right hw
      have hnil := hread [] fun _ hc => nomatch hc
      rw [List.append_nil] at hnil
      exact ⟨v, rfl, hnil⟩
    | list t =>
      rw [passHead_of_list hx] at hpass
      cases hpass
    | object t =>
      rw [passHead_of_object hx] at hpass
      cases hpass
  · rintro ⟨v, rfl, hv⟩
    obtain ⟨a, v', ha, hw, -, hread⟩ := head_scalar_local hv
    rw [List.append_nil] at hw
    obtain rfl := eq_nil_of_blank ha (hw ▸ h.1)
    rw [hw]
    exact hread r hr

theorem IsKey.startsEntry {k : List Char} (h : IsKey k) : StartsEntry k := by
  obtain ⟨q, rfl, -⟩ := h
  exact ⟨'"', q, rfl, rfl, by decide, by decide⟩

/-- A key is passed with the colon behind it. -/
theorem IsKey.passKey {k c r : List Char} (h : IsKey k) (hc : Blank c) :
    passKey .object (k ++ (c ++ ':' :: r)) = .ok r := by
  obtain ⟨q, rfl, hq⟩ := h
  obtain ⟨w, hw, hpass⟩ := passQuoted_local hq
  rw [List.append_nil] at hw
  have hcolon : colon (c ++ ':' :: r) = .ok r := by
    unfold colon
    rw [skipSpace_blank hc, skipSpace_cons rfl]
    rfl
  rw [Json.passKey, List.cons_append, skipSpace_cons rfl, hw]
  simp only [if_true, hpass, hcolon]

/-- What is passed before a value in an object is a key and a colon. -/
theorem exists_key_of_passKey {s u : List Char} (h : passKey .object s = .ok u) :
    ∃ a k c, Blank a ∧ IsKey k ∧ Blank c ∧ s = a ++ (k ++ (c ++ ':' :: u)) := by
  obtain ⟨a, ha, hs⟩ := exists_blank s
  simp only [passKey] at h
  split at h
  · cases h
  · next d t ht =>
    rw [ht] at hs
    split at h
    · next hd =>
      split at h
      · cases h
      · next v hv =>
        obtain ⟨q, rfl, hpass⟩ := passQuoted_local hv
        have hq := hpass []
        rw [List.append_nil] at hq
        obtain ⟨c, hc, hsplit⟩ := exists_blank v
        unfold colon at h
        split at h
        · cases h
        · next e w hw =>
          split at h
          · next he =>
            cases h
            rw [hw, he] at hsplit
            exact ⟨a, '"' :: q, c, ha, ⟨q, rfl, hq⟩, hc, by rw [hs, hd, hsplit]; rfl⟩
          · cases h
    · cases h

/-! ### The places between tokens -/

theorem endsNumber_blank {a r : List Char} (ha : Blank a) (hr : EndsNumber r) :
    EndsNumber (a ++ r) := by
  refine forall_head?_append (fun c hc => ?_) hr
  have hspace := ha c (List.mem_of_mem_head? hc)
  unfold isSpace at hspace
  simp only [Bool.or_eq_true, beq_iff_eq] at hspace
  rcases hspace with ((rfl | rfl) | rfl) | rfl <;> decide

theorem endsNumber_cons {c : Char} (h : c = ',' ∨ c = ']' ∨ c = '\x7d') (r : List Char) :
    EndsNumber (c :: r) := by
  intro d hd
  cases hd
  rcases h with rfl | rfl | rfl <;> decide

/-- What follows an entry of a list does not go on with a number. -/
theorem WritesItems.endsNumber {ts : List Tree} {x : List Char} (h : WritesItems false ts x)
    (rest : List Char) : EndsNumber (x ++ rest) := by
  cases h with
  | nil ha =>
    rw [List.append_assoc]
    exact endsNumber_blank ha (endsNumber_cons (.inr (.inl rfl)) rest)
  | cons ha =>
    rw [List.append_assoc]
    exact endsNumber_blank ha (endsNumber_cons (.inl rfl) _)

/-- What follows an entry of an object does not go on with a number. -/
theorem WritesMembers.endsNumber {ms : List (List Char × Tree)} {x : List Char}
    (h : WritesMembers false ms x) (rest : List Char) : EndsNumber (x ++ rest) := by
  cases h with
  | nil ha =>
    rw [List.append_assoc]
    exact endsNumber_blank ha (endsNumber_cons (.inr (.inr rfl)) rest)
  | cons ha =>
    rw [List.append_assoc]
    exact endsNumber_blank ha (endsNumber_cons (.inl rfl) _)

theorem Tree.Writes.startsEntry {t : Tree} {w : List Char} (h : t.Writes w) : StartsEntry w := by
  cases h with
  | scalar h => exact h.1
  | list => exact ⟨'[', _, rfl, rfl, by decide, by decide⟩
  | object => exact ⟨'\x7b', _, rfl, rfl, by decide, by decide⟩

/-- An entry stands next behind its comma and spaces. -/
theorem nextEntry_spaced (b : Bracket) (first : Bool) {a c s : List Char} (ha : Blank a)
    (hc : Blank c) (hs : StartsEntry s) :
    nextEntry b first (a ++ (lead first ++ (c ++ s))) = .ok (.more s) := by
  have hskip := skipSpace_of_startsEntry hs
  obtain ⟨d, t, rfl, -, hlist, hobject⟩ := hs
  have hd : d ≠ b.closer := by
    cases b
    · exact hlist
    · exact hobject
  have hcomma : skipSpace (a ++ ',' :: (c ++ d :: t)) = ',' :: (c ++ d :: t) := by
    rw [skipSpace_blank ha, skipSpace_comma]
  unfold nextEntry lead
  cases first with
  | true =>
    simp only [if_true, List.nil_append, skipSpace_blank ha, skipSpace_blank hc, hskip, if_neg hd]
  | false =>
    simp only [Bool.false_eq_true, if_false, if_true, List.cons_append, List.nil_append, hcomma,
      if_neg (closer_ne_comma b), skipSpace_blank hc, hskip, if_neg hd]

/-- The closing bracket stands next behind its spaces. -/
theorem nextEntry_closer (b : Bracket) (first : Bool) {a : List Char} (ha : Blank a)
    (rest : List Char) :
    nextEntry b first (a ++ b.closer :: rest) = .ok (.ended (b.closer :: rest)) :=
  nextEntry_ended_iff.mpr
    ⟨rest, by rw [skipSpace_blank ha, skipSpace_cons (isSpace_closer b)], rfl⟩

/-! ### Trees are passed over -/

theorem pass_due_blank {bs : List Bracket} {a s : List Char} (ha : Blank a) :
    pass .due bs (a ++ s) = pass .due bs s :=
  pass_due_congr (skipSpace_blank ha)

mutual
/-- The text of a tree is passed over, inside any open brackets. -/
theorem Tree.Writes.pass {t : Tree} {w : List Char} : t.Writes w →
    ∀ (bs : List Bracket) {rest : List Char}, EndsNumber rest →
      Json.pass .due bs (w ++ rest) = Json.pass .done bs rest
  | .scalar h, bs, rest, hr => pass_due_scalar (h.passHead hr)
  | .list h, bs, rest, _ => by
    rw [List.cons_append, pass_due_opened (passHead_of_list (t := _ ++ rest) rfl)]
    exact h.pass bs rest
  | .object h, bs, rest, _ => by
    rw [List.cons_append, pass_due_opened (passHead_of_object (t := _ ++ rest) rfl)]
    exact h.pass bs rest

theorem WritesItems.pass {first : Bool} {ts : List Tree} {x : List Char} :
    WritesItems first ts x → ∀ (bs : List Bracket) (rest : List Char),
      Json.pass (phaseBefore first) (.list :: bs) (x ++ rest) = Json.pass .done bs rest
  | .nil ha, bs, rest => by
    rw [List.append_assoc]
    exact pass_closer first (by rw [skipSpace_blank ha]; exact skipSpace_cons rfl rest)
  | .cons ha hb hw hx, bs, rest => by
    simp only [List.append_assoc]
    rw [pass_next (b := .list) (nextEntry_spaced .list first ha hb (hw.startsEntry.append _)) rfl,
      hw.pass _ (hx.endsNumber rest)]
    exact hx.pass bs rest

theorem WritesMembers.pass {first : Bool} {ms : List (List Char × Tree)} {x : List Char} :
    WritesMembers first ms x → ∀ (bs : List Bracket) (rest : List Char),
      Json.pass (phaseBefore first) (.object :: bs) (x ++ rest) = Json.pass .done bs rest
  | .nil ha, bs, rest => by
    rw [List.append_assoc]
    exact pass_closer first (by rw [skipSpace_blank ha]; exact skipSpace_cons rfl rest)
  | .cons ha hb hk hc hd hw hx, bs, rest => by
    simp only [List.append_assoc, List.cons_append]
    rw [pass_next (b := .object) (nextEntry_spaced .object first ha hb (hk.startsEntry.append _))
      (hk.passKey hc), pass_due_blank hd, hw.pass _ (hx.endsNumber rest)]
    exact hx.pass bs rest
end

/-! ### What is passed over is a tree -/

theorem pass_due_eq_ok {bs : List Bracket} {s u : List Char} (h : pass .due bs s = .ok u) :
    (∃ t, passHead s = .ok (.scalar t) ∧ pass .done bs t = .ok u) ∨
      ∃ b t, passHead s = .ok (.opened b t) ∧ pass .opened (b :: bs) t = .ok u := by
  rw [pass] at h
  split at h
  · cases h
  · next t ht => exact .inl ⟨t, ht, h⟩
  · next b t ht => exact .inr ⟨b, t, ht, h⟩

/-- Inside a bracket either the closing one stands next, or an entry behind its comma. -/
theorem pass_rest_eq_ok {first : Bool} {b : Bracket} {bs : List Bracket} {s u : List Char}
    (h : pass (phaseBefore first) (b :: bs) s = .ok u) :
    (∃ t, skipSpace s = b.closer :: t ∧ pass .done bs t = .ok u) ∨
      ∃ t v, skipSpace s = lead first ++ t ∧ passKey b t = .ok v ∧
        pass .due (b :: bs) v = .ok u := by
  cases first with
  | true =>
    replace h : pass .opened (b :: bs) s = .ok u := h
    rw [pass] at h
    split at h
    · cases h
    · next c t hs =>
      split at h
      · next hc => exact .inl ⟨t, hc ▸ hs, h⟩
      · split at h
        · cases h
        · next v hk => exact .inr ⟨c :: t, v, hs, hk, h⟩
  | false =>
    replace h : pass .done (b :: bs) s = .ok u := h
    rw [pass] at h
    split at h
    · cases h
    · next c t hs =>
      split at h
      · next hc => exact .inl ⟨t, hc ▸ hs, h⟩
      · split at h
        · next hcomma =>
          split at h
          · cases h
          · next v hk => exact .inr ⟨t, v, by rw [hs, hcomma]; rfl, hk, h⟩
        · cases h

theorem skipSpace_of_opened {s t : List Char} {b : Bracket} (h : passHead s = .ok (.opened b t)) :
    (b = .list ∧ skipSpace s = '[' :: t) ∨ (b = .object ∧ skipSpace s = '\x7b' :: t) := by
  have hscalar : ∀ {r : Except Stop (List Char)}, passedScalar r ≠ .ok (.opened b t) := by
    intro r hr
    unfold passedScalar at hr
    split at hr <;> cases hr
  unfold passHead at h
  split at h
  · cases h
  · next c v hs =>
    iterate 5
      split at h
      · exact absurd h hscalar
    split at h
    · next hc => cases h; exact .inl ⟨rfl, hc ▸ hs⟩
    split at h
    · next hc => cases h; exact .inr ⟨rfl, hc ▸ hs⟩
    · cases h

/-- The text is that of the entries of either kind of bracket with the closing one. -/
def WritesRest (first : Bool) : Bracket → List Char → Prop
  | .list, x => ∃ ts, WritesItems first ts x
  | .object, x => ∃ ms, WritesMembers first ms x

/-- If the text is passed over where a value is due, it starts with that of a tree. -/
def SplitsDue (s : List Char) : Prop :=
  ∀ (bs : List Bracket) (u : List Char), pass .due bs s = .ok u →
    ∃ a t w v, Blank a ∧ s = a ++ (w ++ v) ∧ Tree.Writes t w ∧ pass .done bs v = .ok u

/-- If the text is passed over inside a bracket, it starts with that of entries. -/
def SplitsRest (s : List Char) : Prop :=
  ∀ (first : Bool) (b : Bracket) (bs : List Bracket) (u : List Char),
    pass (phaseBefore first) (b :: bs) s = .ok u →
    ∃ x v, s = x ++ v ∧ WritesRest first b x ∧ pass .done bs v = .ok u

theorem splitsDue {s : List Char} (h : ∀ t : List Char, t.length < s.length → SplitsRest t) :
    SplitsDue s := by
  intro bs u hu
  rcases pass_due_eq_ok hu with ⟨t, ht, hu⟩ | ⟨b, t, ht, hu⟩
  · obtain ⟨a, w, ha, hs, hw⟩ := exists_token_of_passHead ht
    exact ⟨a, .scalar w, w, t, ha, hs, .scalar hw, hu⟩
  · obtain ⟨a, ha, hs⟩ := exists_blank s
    obtain ⟨x, v, rfl, hx, hv⟩ := h t (passHead_shortens ht) true b bs u hu
    rcases skipSpace_of_opened ht with ⟨rfl, hskip⟩ | ⟨rfl, hskip⟩
    · obtain ⟨ts, hts⟩ := hx
      exact ⟨a, .list ts, _, v, ha, by rw [hs, hskip]; rfl, .list hts, hv⟩
    · obtain ⟨ms, hms⟩ := hx
      exact ⟨a, .object ms, _, v, ha, by rw [hs, hskip]; rfl, .object hms, hv⟩

theorem splitsRest {s : List Char} (hdue : ∀ t : List Char, t.length ≤ s.length → SplitsDue t)
    (hrest : ∀ t : List Char, t.length < s.length → SplitsRest t) : SplitsRest s := by
  intro first b bs u hu
  obtain ⟨a, ha, hs⟩ := exists_blank s
  have hlength := congrArg List.length hs
  rcases pass_rest_eq_ok hu with ⟨t, hskip, hu⟩ | ⟨t, v, hskip, hk, hu⟩
  · refine ⟨a ++ [b.closer], t, by rw [hs, hskip, List.append_assoc]; rfl, ?_, hu⟩
    cases b with
    | list => exact ⟨[], .nil ha⟩
    | object => exact ⟨[], .nil ha⟩
  · have hv := passKey_length hk
    simp only [hskip, List.length_append] at hlength
    obtain ⟨c, t', w, v', hc, rfl, hw, hv'⟩ := hdue v (by omega) (b :: bs) u hu
    have hshorter : v'.length < s.length := by
      obtain ⟨_, _, hw, -⟩ := hw.startsEntry
      simp only [hw, List.length_append, List.length_cons] at hv
      omega
    obtain ⟨x, y, rfl, hx, hy⟩ := hrest v' hshorter false b bs u hv'
    cases b with
    | list =>
      cases hk
      obtain ⟨ts, hts⟩ := hx
      exact ⟨_, y, by rw [hs, hskip]; simp only [List.append_assoc],
        ⟨t' :: ts, .cons ha hc hw hts⟩, hy⟩
    | object =>
      obtain ⟨d, k, e, hd, hkey, he, rfl⟩ := exists_key_of_passKey hk
      obtain ⟨ms, hms⟩ := hx
      exact ⟨_, y, by rw [hs, hskip]; simp only [List.append_assoc, List.cons_append],
        ⟨(k, t') :: ms, .cons ha hd hkey he hc hw hms⟩, hy⟩

theorem splits (n : Nat) : ∀ s : List Char, s.length < n → SplitsDue s ∧ SplitsRest s := by
  -- a bracket leaves a shorter text, but in front of the first entry nothing is taken, so
  -- that values come before brackets at each length
  induction n with
  | zero => exact fun s h => absurd h (Nat.not_lt_zero _)
  | succ n ih =>
    have hdue : ∀ s : List Char, s.length < n + 1 → SplitsDue s :=
      fun s hs => splitsDue fun t ht => (ih t (by omega)).2
    exact fun s hs => ⟨hdue s hs, splitsRest (fun t ht => hdue t (by omega))
      fun t ht => (ih t (by omega)).2⟩

/-- What is passed over is the text of a tree. -/
theorem exists_writes_of_passValue {s u : List Char} (h : passValue s = .ok u) :
    ∃ a t w, Blank a ∧ s = a ++ (w ++ u) ∧ Tree.Writes t w := by
  obtain ⟨a, t, w, v, ha, hs, hw, hv⟩ := (splits (s.length + 1) s (Nat.lt_succ_self _)).1 [] u h
  rw [pass] at hv
  cases hv
  exact ⟨a, t, w, ha, hs, hw⟩

end Json
end ModelStubs
