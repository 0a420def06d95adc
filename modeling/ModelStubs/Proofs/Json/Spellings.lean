/-
# What a value is spelled by

The loops of the readers are described by what they take: `Json.Items` for the entries
of a list and `Json.Members` for those of an object, one entry after the other up to
the closing bracket. `Json.Spells` puts this together for values of any kind, and
`Json.value_reader_eq_ok_iff` says that a value is read from a text exactly if the
text spells it.

The compact text of a value spells it, if its numbers are whole and of 64 bits at most
and its brackets are not nested too deep (`Json.Value.Fits`).

Key definitions: `Json.nextEntry`, `Json.Items`, `Json.Members`, `Json.Spells`,
`Json.Value.Fits`.
Key theorems: `Json.nextEntry_more`, `Json.items_eq_ok_iff`, `Json.members_collect_eq_ok_iff`,
`Json.value_reader_eq_ok_iff`, `Json.spells_compact`.
-/
import ModelStubs.Proofs.Json.Scalars

namespace ModelStubs
namespace Json

/-! ### The next entry -/

/-- What stands next in a bracket of either kind. A comma stands before all entries but
the first. -/
def nextEntry (b : Bracket) (first : Bool) (s : List Char) : Except Stop Next :=
  match skipSpace s with
  | [] => .error (.on b.ends [])
  | c :: t =>
    if c = b.closer then .ok (.ended (c :: t))
    else if first then .ok (.more (c :: t))
    else if c = ',' then
      match skipSpace t with
      | [] => .error (.on .valueEnds [])
      | d :: u =>
        if d = b.closer then .error (.on .commaAtEnd (d :: u)) else .ok (.more (d :: u))
    else .error (.on b.expectedEnd (c :: t))

theorem nextItem_eq (first : Bool) (s : List Char) :
    nextItem first s = nextEntry .list first s := rfl

theorem nextMember_eq (first : Bool) (s : List Char) :
    nextMember first s = nextEntry .object first s := rfl

theorem skipSpace_skipSpace (s : List Char) : skipSpace (skipSpace s) = skipSpace s := by
  unfold skipSpace
  induction s with
  | nil => rfl
  | cons c s ih =>
    rw [List.dropWhile_cons]
    by_cases hc : isSpace c = true
    · rw [if_pos hc]
      exact ih
    · rw [if_neg hc, List.dropWhile_cons, if_neg hc]

/-- The bracket is closed next if the text starts with the closing one behind its
spaces. -/
theorem nextEntry_ended_iff {b : Bracket} {first : Bool} {s t : List Char} :
    nextEntry b first s = .ok (.ended t) ↔
      ∃ u, skipSpace s = b.closer :: u ∧ t = b.closer :: u := by
  constructor
  · intro h
    unfold nextEntry at h
    split at h
    · cases h
    · next c u hs =>
      split at h
      · next hc => cases h; exact ⟨u, by rw [hs, hc], by rw [hc]⟩
      · repeat' split at h
        all_goals cases h
  · rintro ⟨u, hs, rfl⟩
    unfold nextEntry
    rw [hs]
    exact if_pos rfl

/-- The first entry stands at the start of the text, and another one behind a comma. -/
theorem nextEntry_more {b : Bracket} {first : Bool} {s t : List Char}
    (h : nextEntry b first s = .ok (.more t)) :
    skipSpace t = t ∧ ((first = true ∧ skipSpace s = t ∧ ∃ c u, t = c :: u ∧ c ≠ b.closer) ∨
      (first = false ∧ ∃ u, skipSpace s = ',' :: u ∧ skipSpace u = t)) := by
  unfold nextEntry at h
  split at h
  · cases h
  · next c u hs =>
    split at h
    · cases h
    · next hc =>
      split at h
      · next hf =>
        cases h
        have ht := skipSpace_skipSpace s
        rw [hs] at ht
        exact ⟨ht, .inl ⟨hf, hs, c, u, rfl, hc⟩⟩
      · next hf =>
        split at h
        · next hcomma =>
          split at h
          · cases h
          · next d w hu =>
            split at h
            · cases h
            · cases h
              have ht := skipSpace_skipSpace u
              rw [hu] at ht
              rw [hcomma] at hs
              exact ⟨ht, .inr ⟨Bool.eq_false_iff.mpr hf, u, hs, hu⟩⟩
        · cases h

/-! ### Entries of a list -/

/-- The text spells the entries of a list as the reader takes them, up to the closing
bracket, with which the last text starts. -/
inductive Items {α : Type} (r : Reader α) : Bool → List Char → List α → List Char → Prop
  | nil {first : Bool} {s t : List Char} : nextItem first s = .ok (.ended t) →
      Items r first s [] t
  | cons {first : Bool} {s t u v : List Char} {a : α} {as : List α} :
      nextItem first s = .ok (.more t) → r.run t = .ok (a, u) → Items r false u as v →
      Items r first s (a :: as) v

theorem items_of_ended {α : Type} {r : Reader α} {first : Bool} {done : List α}
    {s t : List Char} (h : nextItem first s = .ok (.ended t)) :
    items r first done s = .ok (done.reverse, t) := by
  rw [items]
  split
  · next he => rw [h] at he; cases he
  · next he => rw [h] at he; cases he; rfl
  · next he => rw [h] at he; cases he

theorem items_of_more {α : Type} {r : Reader α} {first : Bool} {done : List α}
    {s t u : List Char} {a : α} (h : nextItem first s = .ok (.more t))
    (ha : r.run t = .ok (a, u)) : items r first done s = items r false (a :: done) u := by
  rw [items]
  split
  · next he => rw [h] at he; cases he
  · next he => rw [h] at he; cases he
  · next he =>
    rw [h] at he
    cases he
    split
    · next hb => rw [ha] at hb; cases hb
    · next hb => rw [ha] at hb; cases hb; rfl

/-- The loop over the entries of a list takes what the text spells. -/
theorem items_eq_ok_iff {α : Type} {r : Reader α} {first : Bool} {done bs : List α}
    {s t : List Char} : items r first done s = .ok (bs, t) ↔
      ∃ as, bs = done.reverse ++ as ∧ Items r first s as t := by
  constructor
  · intro h
    fun_induction items r first done s with
    | case1 => cases h
    | case2 _ done _ _ hn => cases h; exact ⟨[], by rw [List.append_nil], .nil hn⟩
    | case3 => cases h
    | case4 _ done _ _ hn a _ ha ih =>
      obtain ⟨as, rfl, hs⟩ := ih h
      exact ⟨a :: as, by rw [List.reverse_cons, List.append_assoc]; rfl, .cons hn ha hs⟩
  · rintro ⟨as, rfl, hs⟩
    induction hs generalizing done with
    | nil hn => rw [items_of_ended hn, List.append_nil]
    | cons hn ha _ ih =>
      rw [items_of_more hn ha, ih, List.reverse_cons, List.append_assoc]
      rfl

/-! ### Entries of an object -/

/-- The text spells the entries of an object, each with a value that the reader takes. -/
inductive Members {α : Type} (r : Reader α) : Bool → List Char → List (String × α) →
    List Char → Prop
  | nil {first : Bool} {s t : List Char} : nextMember first s = .ok (.ended t) →
      Members r first s [] t
  | cons {first : Bool} {s t u v w : List Char} {k : String} {a : α}
      {ms : List (String × α)} : nextMember first s = .ok (.more t) →
      keyText t = .ok (k, u) → r.afterColon u = .ok (a, v) → Members r false v ms w →
      Members r first s ((k, a) :: ms) w

variable {σ : Type}

theorem members_of_ended {m : MemberReader σ} {first : Bool} {x : σ} {s t : List Char}
    (h : nextMember first s = .ok (.ended t)) : members m first x s = .ok (x, t) := by
  rw [members]
  split
  · next he => rw [h] at he; cases he
  · next he => rw [h] at he; cases he; rfl
  · next he => rw [h] at he; cases he

theorem members_of_more {m : MemberReader σ} {first : Bool} {x y : σ} {s t u v : List Char}
    {k : String} (h : nextMember first s = .ok (.more t)) (hk : keyText t = .ok (k, u))
    (hm : m.run x k u = .ok (y, v)) : members m first x s = members m false y v := by
  rw [members]
  split
  · next he => rw [h] at he; cases he
  · next he => rw [h] at he; cases he
  · next he =>
    rw [h] at he
    cases he
    split
    · next hb => rw [hk] at hb; cases hb
    · next hb =>
      rw [hk] at hb
      cases hb
      split
      · next hc => rw [hm] at hc; cases hc
      · next hc => rw [hm] at hc; cases hc; rfl

theorem afterColon_eq_ok_iff {α : Type} {r : Reader α} {s t : List Char} {a : α} :
    r.afterColon s = .ok (a, t) ↔ ∃ u, colon s = .ok u ∧ r.run u = .ok (a, t) := by
  unfold Reader.afterColon
  constructor
  · intro h
    split at h
    · cases h
    · next u hu => exact ⟨u, hu, h⟩
  · rintro ⟨u, hu, h⟩
    rw [hu]
    exact h

theorem collect_run_eq_ok_iff {α : Type} {r : Reader α} {done xs : List (String × α)}
    {k : String} {s t : List Char} : (MemberReader.collect r).run done k s = .ok (xs, t) ↔
      ∃ a, r.afterColon s = .ok (a, t) ∧ xs = (k, a) :: done := by
  unfold MemberReader.collect
  constructor
  · intro h
    simp only at h
    split at h
    · cases h
    · next a _ ha => cases h; exact ⟨a, ha, rfl⟩
  · rintro ⟨a, ha, rfl⟩
    simp only [ha]

/-- The loop over the entries of an object collects what the text spells. -/
theorem members_collect_eq_ok_iff {α : Type} {r : Reader α} {first : Bool}
    {done xs : List (String × α)} {s t : List Char} :
    members (.collect r) first done s = .ok (xs, t) ↔
      ∃ ms, xs = ms.reverse ++ done ∧ Members r first s ms t := by
  constructor
  · intro h
    fun_induction members (.collect r) first done s with
    | case1 => cases h
    | case2 _ done _ _ hn => cases h; exact ⟨[], rfl, .nil hn⟩
    | case3 => cases h
    | case4 => cases h
    | case5 _ done _ _ hn k _ hk _ _ hm ih =>
      obtain ⟨ms, rfl, hs⟩ := ih h
      obtain ⟨a, ha, rfl⟩ := collect_run_eq_ok_iff.mp hm
      exact ⟨(k, a) :: ms, by rw [List.reverse_cons, List.append_assoc]; rfl, .cons hn hk ha hs⟩
  · rintro ⟨ms, rfl, hs⟩
    induction hs generalizing done with
    | nil hn => rw [members_of_ended hn]; rfl
    | @cons first s t u v w k a ms hn hk ha _ ih =>
      have hm : (MemberReader.collect r).run done k u = .ok ((k, a) :: done, v) :=
        collect_run_eq_ok_iff.mpr ⟨a, ha, rfl⟩
      rw [members_of_more hn hk hm, ih, List.reverse_cons, List.append_assoc]
      rfl

/-! ### Values -/

/-- With room for the given number of brackets the text `s` spells a value and leaves
the text `rest`. -/
inductive Spells : Nat → List Char → Value → List Char → Prop
  | scalar {room : Nat} {s rest : List Char} {v : Scalar} : head s = .ok (.scalar v rest) →
      Spells room s (.scalar v) rest
  | list {room : Nat} {s t u rest : List Char} {vs : List Value} : head s = .ok (.list t) →
      Items (Value.reader room) true t vs u → closeList u = (none, rest) →
      Spells (room + 1) s (.list vs) rest
  | object {room : Nat} {s t u rest : List Char} {ms : List (String × Value)} :
      head s = .ok (.object t) → Members (Value.reader room) true t ms u →
      closeObject u = (none, rest) → Spells (room + 1) s (.object ms) rest

theorem closed_ok {α : Type} {close : List Char → Option Stop × List Char} {a : α}
    {s t : List Char} (h : close s = (none, t)) : closed close (.ok (a, s)) = .ok (a, t) := by
  unfold closed
  simp only [h]

theorem listRest_eq_ok_iff {α : Type} {r : Reader α} {s t : List Char} {as : List α} :
    listRest r s = .ok (as, t) ↔ ∃ u, Items r true s as u ∧ closeList u = (none, t) := by
  constructor
  · intro h
    obtain ⟨u, hu, hc⟩ := of_closed h
    obtain ⟨bs, rfl, hs⟩ := items_eq_ok_iff.mp hu
    exact ⟨u, hs, hc⟩
  · rintro ⟨u, hs, hc⟩
    have hu : items r true [] s = .ok (as, u) := items_eq_ok_iff.mpr ⟨as, rfl, hs⟩
    rw [listRest, hu, closed_ok hc]

theorem objectRest_eq_ok_iff {α : Type} {r : Reader α} {s t : List Char}
    {ms : List (String × α)} :
    objectRest r s = .ok (ms, t) ↔ ∃ u, Members r true s ms u ∧ closeObject u = (none, t) := by
  constructor
  · intro h
    obtain ⟨xs, hx, rfl⟩ := of_mapped h
    obtain ⟨u, hu, hc⟩ := of_closed hx
    obtain ⟨ms, rfl, hs⟩ := members_collect_eq_ok_iff.mp hu
    rw [List.append_nil, List.reverse_reverse]
    exact ⟨u, hs, hc⟩
  · rintro ⟨u, hs, hc⟩
    have hu : members (.collect r) true [] s = .ok (ms.reverse, u) :=
      members_collect_eq_ok_iff.mpr ⟨ms, (List.append_nil _).symm, hs⟩
    rw [objectRest, hu, closed_ok hc, mapped, List.reverse_reverse]

/-- A value is read from a text exactly if the text spells it. -/
theorem value_reader_eq_ok_iff {room : Nat} {s rest : List Char} {v : Value} :
    (Value.reader room).run s = .ok (v, rest) ↔ Spells room s v rest := by
  constructor
  · intro h
    cases room with
    | zero =>
      simp only [Value.reader, Reader.value] at h
      split at h
      · cases h
      · next hh => cases h; exact .scalar hh
      · cases h
      · cases h
    | succ room =>
      simp only [Value.reader, Reader.value] at h
      split at h
      · cases h
      · next hh => cases h; exact .scalar hh
      · next hh =>
        obtain ⟨vs, hv, rfl⟩ := of_mapped h
        obtain ⟨u, hs, hc⟩ := listRest_eq_ok_iff.mp hv
        exact .list hh hs hc
      · next hh =>
        obtain ⟨ms, hm, rfl⟩ := of_mapped h
        obtain ⟨u, hs, hc⟩ := objectRest_eq_ok_iff.mp hm
        exact .object hh hs hc
  · intro h
    cases h with
    | scalar hh =>
      cases room <;> simp only [Value.reader, Reader.value, hh]
    | list hh hs hc =>
      simp only [Value.reader, Reader.value, hh, listRest_eq_ok_iff.mpr ⟨_, hs, hc⟩, mapped]
    | object hh hs hc =>
      simp only [Value.reader, Reader.value, hh, objectRest_eq_ok_iff.mpr ⟨_, hs, hc⟩, mapped]

/-! ### Compact texts -/

/-- The numbers of the value are read back as they are, and it needs no more than the
given number of brackets to be open at once. -/
inductive Value.Fits : Nat → Value → Prop
  | scalar {room : Nat} {v : Scalar} : v.Exact → Fits room (.scalar v)
  | list {room : Nat} {vs : List Value} : (∀ v ∈ vs, Fits room v) → Fits (room + 1) (.list vs)
  | object {room : Nat} {ms : List (String × Value)} : (∀ m ∈ ms, Fits room m.2) →
      Fits (room + 1) (.object ms)

theorem compactAll_eq_map : ∀ vs : List Value, compactAll vs = vs.map Value.compact
  | [] => rfl
  | v :: vs => by rw [compactAll, compactAll_eq_map vs]; rfl

theorem compactMembers_eq_map : ∀ ms : List (String × Value),
    compactMembers ms = ms.map fun m => quote m.1 ++ ':' :: m.2.compact
  | [] => rfl
  | (k, v) :: ms => by rw [compactMembers, compactMembers_eq_map ms]; rfl

/-- What stands before an entry. -/
def lead (first : Bool) : List Char := if first then [] else [',']

/-- Entries one behind the other. -/
def strung (first : Bool) : List (List Char) → List Char
  | [] => []
  | p :: ps => lead first ++ (p ++ strung false ps)

theorem joined_eq_strung : ∀ ps : List (List Char), Text.joined ',' ps = strung true ps
  | [] => rfl
  | [p] => by
    rw [Text.joined, strung, strung, List.append_nil]
    rfl
  | p :: q :: ps => by
    rw [Text.joined, joined_eq_strung (q :: ps)]
    rfl

/-- The text starts with a character that can start an entry. -/
def StartsEntry (s : List Char) : Prop :=
  ∃ c t, s = c :: t ∧ isSpace c = false ∧ c ≠ ']' ∧ c ≠ '\x7d'

theorem StartsEntry.append {s : List Char} (h : StartsEntry s) (t : List Char) :
    StartsEntry (s ++ t) := by
  obtain ⟨c, u, rfl, h⟩ := h
  exact ⟨c, u ++ t, rfl, h⟩

theorem startsEntry_quote (s : String) : StartsEntry (quote s) :=
  ⟨'"', _, rfl, rfl, by decide, by decide⟩

theorem startsEntry_compact {room : Nat} {v : Value} (h : v.Fits room) :
    StartsEntry v.compact := by
  cases h with
  | scalar hv =>
    rename_i v
    rw [Value.compact]
    cases v with
    | null => exact ⟨'n', _, rfl, rfl, by decide, by decide⟩
    | flag b =>
      cases b
      · exact ⟨'f', _, rfl, rfl, by decide, by decide⟩
      · exact ⟨'t', _, rfl, rfl, by decide, by decide⟩
    | text s => exact startsEntry_quote s
    | number n =>
      cases n with
      | natural n =>
        obtain ⟨c, ds, h, hc⟩ := exists_cons_toDigits n
        exact ⟨c, ds, h, isSpace_of_isDigit hc, ne_of_isDigit hc rfl, ne_of_isDigit hc rfl⟩
      | negative n => exact hv.elim
      | real x => exact hv.elim
  | list _ => exact ⟨'[', _, by rw [Value.compact]; rfl, rfl, by decide, by decide⟩
  | object _ => exact ⟨'\x7b', _, by rw [Value.compact]; rfl, rfl, by decide, by decide⟩

theorem skipSpace_of_startsEntry {s : List Char} (h : StartsEntry s) : skipSpace s = s := by
  obtain ⟨c, t, rfl, hc, -⟩ := h
  exact skipSpace_cons hc t

theorem skipSpace_comma (s : List Char) : skipSpace (',' :: s) = ',' :: s := skipSpace_cons rfl s

theorem closer_ne_comma (b : Bracket) : ',' ≠ b.closer := by
  cases b <;> decide

theorem isSpace_closer (b : Bracket) : isSpace b.closer = false := by
  cases b <;> rfl

/-- An entry that is written stands next. -/
theorem nextEntry_entry (b : Bracket) (first : Bool) {s : List Char} (h : StartsEntry s) :
    nextEntry b first (lead first ++ s) = .ok (.more s) := by
  have hs := skipSpace_of_startsEntry h
  obtain ⟨c, t, rfl, -, hlist, hobject⟩ := h
  have hc : c ≠ b.closer := by
    cases b
    · exact hlist
    · exact hobject
  unfold nextEntry lead
  cases first with
  | true => simp only [if_true, List.nil_append, hs, if_neg hc]
  | false =>
    simp only [Bool.false_eq_true, if_false, if_true, List.cons_append, List.nil_append,
      skipSpace_comma, if_neg (closer_ne_comma b), hs, if_neg hc]

/-- Behind all entries the closing bracket stands next. -/
theorem nextEntry_bracket (b : Bracket) (first : Bool) (rest : List Char) :
    nextEntry b first (b.closer :: rest) = .ok (.ended (b.closer :: rest)) :=
  nextEntry_ended_iff.mpr ⟨rest, skipSpace_cons (isSpace_closer b) rest, rfl⟩

theorem colon_cons (s : List Char) : colon (':' :: s) = .ok s := by
  have hs : skipSpace (':' :: s) = ':' :: s := skipSpace_cons rfl s
  unfold colon
  rw [hs]
  rfl

/-- What stands behind an entry does not go on with a number. -/
theorem endsNumber_strung {c : Char} (h : c = ']' ∨ c = '\x7d') (ps : List (List Char))
    (rest : List Char) : EndsNumber (strung false ps ++ c :: rest) := by
  intro d hd
  cases ps with
  | nil =>
    cases hd
    rcases h with rfl | rfl
    · exact ⟨rfl, by decide, by decide, by decide⟩
    · exact ⟨rfl, by decide, by decide, by decide⟩
  | cons p ps =>
    cases hd
    exact ⟨rfl, by decide, by decide, by decide⟩

/-- The text spells the value whatever follows, if that does not go on with a number. -/
def SpellsAlone (room : Nat) (text : List Char) (v : Value) : Prop :=
  StartsEntry text ∧ ∀ rest, EndsNumber rest → Spells room (text ++ rest) v rest

/-- Texts of values one behind the other are the entries of a list. -/
theorem items_strung {room : Nat} (rest : List Char) : ∀ (first : Bool) (vs : List Value),
    (∀ v ∈ vs, SpellsAlone room v.compact v) →
    Items (Value.reader room) first (strung first (vs.map Value.compact) ++ ']' :: rest) vs
      (']' :: rest)
  | first, [], _ => .nil (nextEntry_bracket .list first rest)
  | first, v :: vs, h => by
    obtain ⟨hstart, hspells⟩ := h v List.mem_cons_self
    have hv := hspells _ (endsNumber_strung (.inl rfl) (vs.map Value.compact) rest)
    rw [List.map_cons, strung, List.append_assoc, List.append_assoc]
    exact .cons (nextEntry_entry .list first (hstart.append _)) (value_reader_eq_ok_iff.mpr hv)
      (items_strung rest false vs fun w hw => h w (List.mem_cons_of_mem _ hw))

/-- Keys with the texts of values one behind the other are the entries of an object. -/
theorem members_strung {room : Nat} (rest : List Char) :
    ∀ (first : Bool) (ms : List (String × Value)),
    (∀ m ∈ ms, SpellsAlone room m.2.compact m.2) →
    Members (Value.reader room) first
      (strung first (ms.map fun m => quote m.1 ++ ':' :: m.2.compact) ++ '\x7d' :: rest) ms
      ('\x7d' :: rest)
  | first, [], _ => .nil (nextEntry_bracket .object first rest)
  | first, (k, v) :: ms, h => by
    obtain ⟨-, hspells⟩ := h (k, v) List.mem_cons_self
    have hv := hspells _ (endsNumber_strung (.inr rfl)
      (ms.map fun m => quote m.1 ++ ':' :: m.2.compact) rest)
    rw [List.map_cons, strung, List.append_assoc, List.append_assoc, List.append_assoc]
    refine .cons (nextEntry_entry .object first ((startsEntry_quote k).append _))
      (keyText_quote k _) ?_
      (members_strung rest false ms fun m hm => h m (List.mem_cons_of_mem _ hm))
    rw [Reader.afterColon, List.cons_append, colon_cons]
    exact value_reader_eq_ok_iff.mpr hv

/-- The compact text of a value spells it. -/
theorem spells_compact {room : Nat} {v : Value} (h : v.Fits room) :
    SpellsAlone room v.compact v := by
  refine ⟨startsEntry_compact h, ?_⟩
  induction h with
  | scalar hv =>
    intro rest hr
    rw [Value.compact]
    exact .scalar (head_written hv hr)
  | @list room vs hfit ih =>
    intro rest hr
    rw [Value.compact, compactAll_eq_map, joined_eq_strung, List.append_assoc]
    exact .list rfl
      (items_strung rest true vs fun v hv => ⟨startsEntry_compact (hfit v hv), ih v hv⟩) rfl
  | @object room ms hfit ih =>
    intro rest hr
    rw [Value.compact, compactMembers_eq_map, joined_eq_strung, List.append_assoc]
    exact .object rfl
      (members_strung rest true ms fun m hm => ⟨startsEntry_compact (hfit m hm), ih m hm⟩) rfl

end Json
end ModelStubs
