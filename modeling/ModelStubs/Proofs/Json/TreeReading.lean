/-
# Readers on the texts of trees

What a reader takes from the text of a tree depends on the tree alone: not on the spaces
between the tokens and not on what follows. `Json.Reads` says so of a reader, and gives
what it takes as a relation between trees and results. The loops over the entries of a
list and of an object keep this: the first reads entry by entry
(`Json.WritesItems.listRest_iff`), the second carries a state from entry to entry
(`Json.Runs`, `Json.WritesMembers.members_iff`).

Values are the first case: `Json.Tree.Means` is what the tree of a text means as a value.
A tree is readable if it means any: its tokens are readable, its keys are names and its
brackets are nested no deeper than there is room (`Json.readable_list_iff`,
`Json.readable_object_iff`).

Key definitions: `Json.keyName`, `Json.Meaning`, `Json.Reads`, `Json.Runs`,
`Json.gatherStep`, `Json.Tree.Means`, `Json.Tree.Readable`.
Key theorems: `Json.WritesItems.listRest_iff`, `Json.WritesMembers.members_iff`,
`Json.runs_gather_iff`, `Json.readable_object_iff`, `Json.reads_value`.
-/
import Mathlib.Data.List.Forall2
import ModelStubs.Proofs.Json.SyntaxTrees

namespace ModelStubs
namespace Json

/-! ### Keys -/

/-- The name that a key spells, unless an escape in it is half a character. -/
def keyName (k : List Char) : Option String :=
  match keyText k with
  | .ok (name, []) => some name
  | _ => none

theorem keyText_cons_quote (s : List Char) : keyText ('"' :: s) = mapped String.ofList (quoted [] s) := by
  rw [keyText, if_pos rfl]
  cases quoted [] s with
  | error e => rfl
  | ok x => rfl

/-- The name of a key is read from it whatever follows. -/
theorem IsKey.keyText_eq_ok_iff {k r u : List Char} {name : String} (h : IsKey k) :
    keyText (k ++ r) = .ok (name, u) ↔ u = r ∧ keyName k = some name := by
  obtain ⟨q, rfl, hq⟩ := h
  obtain ⟨w, hw, hpass⟩ := passQuoted_local hq
  rw [List.append_nil] at hw
  subst hw
  constructor
  · intro h
    rw [List.cons_append, keyText_cons_quote] at h
    obtain ⟨cs, hquoted, rfl⟩ := of_mapped h
    have hrest := passQuoted_of_quoted hquoted
    rw [hpass] at hrest
    cases hrest
    obtain ⟨v, hv, hread⟩ := quoted_local hquoted
    obtain rfl := List.append_cancel_right hv
    have hnil := hread []
    rw [List.append_nil] at hnil
    refine ⟨rfl, ?_⟩
    unfold keyName
    rw [keyText_cons_quote, hnil]
    rfl
  · rintro ⟨rfl, h⟩
    unfold keyName at h
    rw [keyText_cons_quote] at h
    rw [List.cons_append, keyText_cons_quote]
    cases hquoted : quoted [] q with
    | error e =>
      rw [hquoted] at h
      cases h
    | ok x =>
      obtain ⟨cs, t⟩ := x
      rw [hquoted] at h
      obtain ⟨v, hv, hread⟩ := quoted_local hquoted
      cases t with
      | cons c t => cases h
      | nil =>
        rw [List.append_nil] at hv
        cases h
        rw [hv, hread]
        rfl

/-- The keys of all members spell names. -/
def KeysRead (ms : List (List Char × Tree)) : Prop := ∀ m ∈ ms, (keyName m.1).isSome = true

section

variable {m : List Char × Tree} {ms : List (List Char × Tree)}

theorem keysRead_cons_iff {k : String} (hk : keyName m.1 = some k) :
    KeysRead (m :: ms) ↔ KeysRead ms := by
  refine List.forall_mem_cons.trans (and_iff_right ?_)
  rw [hk]
  rfl

theorem not_keysRead_cons (hk : keyName m.1 = none) : ¬ KeysRead (m :: ms) := by
  intro h
  have hm := h m List.mem_cons_self
  rw [hk] at hm
  cases hm

end

/-! ### What is read from a tree -/

/-- What trees stand for. -/
abbrev Meaning (α : Type) : Type := Tree → α → Prop

/-- The reader takes the text of a tree and nothing more, and its result is what the tree
stands for. -/
def Reads {α : Type} (r : Reader α) (M : Meaning α) : Prop :=
  ∀ {t : Tree} {a w rest u : List Char} {x : α}, t.Writes w → Blank a → EndsNumber rest →
    (r.run (a ++ (w ++ rest)) = .ok (x, u) ↔ u = rest ∧ M t x)

theorem head_blank {a s : List Char} (ha : Blank a) : head (a ++ s) = head s :=
  head_congr (skipSpace_blank ha)

/-- The entries of a list are read one by one. -/
theorem WritesItems.items_iff {α : Type} {r : Reader α} {M : Meaning α} (hr : Reads r M)
    {first : Bool} {ts : List Tree} {x : List Char} (h : WritesItems first ts x)
    {rest u : List Char} {as : List α} :
    Items r first (x ++ rest) as u ↔ u = ']' :: rest ∧ List.Forall₂ M ts as := by
  induction ts generalizing first x as with
  | nil =>
    cases h with
    | nil ha =>
      have hnext := nextEntry_closer .list first ha rest
      rw [List.append_assoc]
      constructor
      · intro hi
        cases hi with
        | nil hn => cases hn.symm.trans hnext; exact ⟨rfl, .nil⟩
        | cons hn => cases hn.symm.trans hnext
      · rintro ⟨rfl, hall⟩
        cases hall
        exact .nil hnext
  | cons t ts ih =>
    cases h with
    | @cons _ a b w y _ _ ha hb hw hy =>
      have hnext := nextEntry_spaced .list first ha hb (hw.startsEntry.append (y ++ rest))
      have hread : ∀ {u : List Char} {v : α},
          r.run (w ++ (y ++ rest)) = .ok (v, u) ↔ u = y ++ rest ∧ M t v :=
        hr hw blank_nil (hy.endsNumber rest)
      simp only [List.append_assoc]
      constructor
      · intro hi
        cases hi with
        | nil hn => cases hn.symm.trans hnext
        | cons hn hv hrest =>
          cases hn.symm.trans hnext
          obtain ⟨rfl, hm⟩ := hread.mp hv
          obtain ⟨rfl, hall⟩ := (ih hy).mp hrest
          exact ⟨rfl, .cons hm hall⟩
      · rintro ⟨rfl, hall⟩
        cases hall with
        | cons hm hall => exact .cons hnext (hread.mpr ⟨rfl, hm⟩) ((ih hy).mpr ⟨rfl, hall⟩)

theorem closeList_closer (rest : List Char) : closeList (']' :: rest) = (none, rest) :=
  closeList_eq_none_iff.mpr (skipSpace_cons rfl rest)

theorem closeObject_closer (rest : List Char) : closeObject ('\x7d' :: rest) = (none, rest) :=
  closeObject_eq_none_iff.mpr (skipSpace_cons rfl rest)

/-- A list is read entry by entry, with its closing bracket. -/
theorem WritesItems.listRest_iff {α : Type} {r : Reader α} {M : Meaning α} (hr : Reads r M)
    {ts : List Tree} {x : List Char} (h : WritesItems true ts x) {rest u : List Char}
    {as : List α} :
    listRest r (x ++ rest) = .ok (as, u) ↔ u = rest ∧ List.Forall₂ M ts as := by
  rw [listRest_eq_ok_iff]
  constructor
  · rintro ⟨v, hi, hc⟩
    obtain ⟨rfl, hall⟩ := (h.items_iff hr).mp hi
    rw [closeList_closer] at hc
    cases hc
    exact ⟨rfl, hall⟩
  · rintro ⟨rfl, hall⟩
    exact ⟨_, (h.items_iff hr).mpr ⟨rfl, hall⟩, closeList_closer _⟩

/-! ### Runs over the entries of an object -/

variable {σ τ : Type}

/-- What an entry does to the state, by the name of its key and its tree. -/
abbrev Step (σ : Type) : Type := σ → String → Tree → σ → Prop

/-- Entry after entry takes the first state to the last. All keys must spell names. -/
def Runs (step : Step σ) : σ → List (List Char × Tree) → σ → Prop
  | x, [], z => z = x
  | x, m :: ms, z => ∃ k y, keyName m.1 = some k ∧ step x k m.2 y ∧ Runs step y ms z

theorem runs_cons_iff {step : Step σ} {m : List Char × Tree} {ms : List (List Char × Tree)}
    {x z : σ} {k : String} (hk : keyName m.1 = some k) :
    Runs step x (m :: ms) z ↔ ∃ y, step x k m.2 y ∧ Runs step y ms z := by
  constructor
  · rintro ⟨k', y, hk', h⟩
    cases hk.symm.trans hk'
    exact ⟨y, h⟩
  · rintro ⟨y, h⟩
    exact ⟨k, y, hk, h⟩

theorem Runs.keysRead {step : Step σ} {ms : List (List Char × Tree)} {x z : σ}
    (h : Runs step x ms z) : KeysRead ms := by
  induction ms generalizing x with
  | nil => exact List.forall_mem_nil _
  | cons m ms ih =>
    obtain ⟨k, y, hk, -, hrest⟩ := h
    exact (keysRead_cons_iff hk).mpr (ih hrest)

/-- The reader of a member takes its text and nothing more, and does one step. -/
def Steps (m : MemberReader σ) (step : Step σ) : Prop :=
  ∀ {t : Tree} {k : String} {a b w rest u : List Char} {x y : σ}, t.Writes w → Blank a →
    Blank b → EndsNumber rest →
    (m.run x k (a ++ ':' :: (b ++ (w ++ rest))) = .ok (y, u) ↔ u = rest ∧ step x k t y)

theorem members_more_iff {m : MemberReader σ} {first : Bool} {x z : σ} {s t v : List Char}
    (h : nextMember first s = .ok (.more t)) :
    members m first x s = .ok (z, v) ↔ ∃ k u y t', keyText t = .ok (k, u) ∧
      m.run x k u = .ok (y, t') ∧ members m false y t' = .ok (z, v) := by
  constructor
  · intro hm
    rw [members] at hm
    split at hm
    · next he => rw [h] at he; cases he
    · next he => rw [h] at he; cases he
    · next he =>
      rw [h] at he
      cases he
      split at hm
      · cases hm
      · next k u hk =>
        split at hm
        · cases hm
        · next y t' hy => exact ⟨k, u, y, t', hk, hy, hm⟩
  · rintro ⟨k, u, y, t', hk, hy, hm⟩
    rw [members_of_more h hk hy, hm]

/-- The entries of an object are gone through one by one. -/
theorem WritesMembers.members_iff {m : MemberReader σ} {step : Step σ} (hm : Steps m step)
    {first : Bool} {ms : List (List Char × Tree)} {x : List Char} (h : WritesMembers first ms x)
    {rest u : List Char} {y z : σ} :
    members m first y (x ++ rest) = .ok (z, u) ↔ u = '\x7d' :: rest ∧ Runs step y ms z := by
  induction ms generalizing first x y with
  | nil =>
    cases h with
    | nil ha =>
      have hrun := members_of_ended (m := m) (x := y) (nextEntry_closer .object first ha rest)
      rw [List.append_assoc]
      refine (Eq.congr_left hrun).trans ?_
      constructor
      · intro he
        cases he
        exact ⟨rfl, rfl⟩
      · rintro ⟨rfl, rfl⟩
        rfl
  | cons n ms ih =>
    cases h with
    | @cons _ a b c d k w v t _ ha hb hk hc hd hw hv =>
      have hnext := nextEntry_spaced .object first ha hb
        (hk.startsEntry.append (c ++ ':' :: (d ++ (w ++ (v ++ rest)))))
      simp only [List.append_assoc, List.cons_append]
      rw [members_more_iff hnext]
      constructor
      · rintro ⟨name, _, y', _, hread, hrun, hrest⟩
        obtain ⟨rfl, hname⟩ := hk.keyText_eq_ok_iff.mp hread
        obtain ⟨rfl, hstep⟩ := (hm hw hc hd (hv.endsNumber rest)).mp hrun
        obtain ⟨rfl, hruns⟩ := (ih hv).mp hrest
        exact ⟨rfl, name, y', hname, hstep, hruns⟩
      · rintro ⟨rfl, name, y', hname, hstep, hruns⟩
        exact ⟨name, _, y', _, hk.keyText_eq_ok_iff.mpr ⟨rfl, hname⟩,
          (hm hw hc hd (hv.endsNumber rest)).mpr ⟨rfl, hstep⟩, (ih hv).mpr ⟨rfl, hruns⟩⟩

theorem colon_blank {a s : List Char} (ha : Blank a) : colon (a ++ ':' :: s) = .ok s := by
  have hcolon := colon_cons s
  unfold colon at hcolon ⊢
  rw [skipSpace_blank ha]
  exact hcolon

/-- The value behind a colon is read as its tree says. -/
theorem Reads.afterColon_iff {α : Type} {r : Reader α} {M : Meaning α} (hr : Reads r M) {t : Tree}
    {a b w rest u : List Char} {x : α} (hw : t.Writes w) (ha : Blank a) (hb : Blank b)
    (hrest : EndsNumber rest) :
    r.afterColon (a ++ ':' :: (b ++ (w ++ rest))) = .ok (x, u) ↔ u = rest ∧ M t x := by
  rw [Reader.afterColon, colon_blank ha]
  exact hr hw hb hrest

/-- Two states that do not touch each other. -/
def pairStep (f : Step σ) (g : Step τ) : Step (σ × τ) := fun x k t y =>
  f x.1 k t y.1 ∧ g x.2 k t y.2

theorem runs_pair_iff {f : Step σ} {g : Step τ} {ms : List (List Char × Tree)} {x y : σ × τ} :
    Runs (pairStep f g) x ms y ↔ Runs f x.1 ms y.1 ∧ Runs g x.2 ms y.2 := by
  induction ms generalizing x with
  | nil => exact Prod.ext_iff
  | cons m ms ih =>
    constructor
    · rintro ⟨k, z, hk, ⟨hf, hg⟩, hrest⟩
      obtain ⟨hf', hg'⟩ := ih.mp hrest
      exact ⟨⟨k, z.1, hk, hf, hf'⟩, ⟨k, z.2, hk, hg, hg'⟩⟩
    · rintro ⟨⟨k, z, hk, hf, hf'⟩, ⟨k', z', hk', hg, hg'⟩⟩
      cases hk.symm.trans hk'
      exact ⟨k, (z, z'), hk, ⟨hf, hg⟩, ih.mpr ⟨hf', hg'⟩⟩

/-! ### Gathering entries -/

/-- The entry has the name and stands for the value. -/
def Entails {α : Type} (M : Meaning α) (m : List Char × Tree) (x : String × α) : Prop :=
  keyName m.1 = some x.1 ∧ M m.2 x.2

/-- Puts the entry in front of those before it, unless its name is skipped. -/
def gatherStep {α : Type} (skip : String → Bool) (M : Meaning α) : Step (List (String × α)) :=
  fun xs k t ys => if skip k then ys = xs else ∃ x, M t x ∧ ys = (k, x) :: xs

/-- The members whose names are not skipped. -/
def unskipped (skip : String → Bool) (ms : List (List Char × Tree)) : List (List Char × Tree) :=
  ms.filter fun m => !(keyName m.1).any skip

/-- All entries but the skipped ones are gathered. -/
theorem runs_gather_iff {α : Type} {skip : String → Bool} {M : Meaning α}
    {ms : List (List Char × Tree)} {done zs : List (String × α)} :
    Runs (gatherStep skip M) done ms zs ↔ KeysRead ms ∧
      ∃ xs, zs = xs.reverse ++ done ∧ List.Forall₂ (Entails M) (unskipped skip ms) xs := by
  induction ms generalizing done with
  | nil =>
    constructor
    · rintro rfl
      exact ⟨List.forall_mem_nil _, [], rfl, .nil⟩
    · rintro ⟨-, xs, rfl, hall⟩
      cases hall
      rfl
  | cons m ms ih =>
    cases hk : keyName m.1 with
    | none =>
      exact iff_of_false (fun h => not_keysRead_cons hk h.keysRead) fun h =>
        not_keysRead_cons hk h.1
    | some k =>
      rw [runs_cons_iff hk, keysRead_cons_iff hk]
      by_cases hskip : skip k = true
      · have hout : unskipped skip (m :: ms) = unskipped skip ms := by
          simp only [unskipped, List.filter_cons, hk, Option.any_some, hskip, Bool.not_true,
            Bool.false_eq_true, if_false]
        rw [hout, ← ih]
        unfold gatherStep
        simp only [if_pos hskip, exists_eq_left]
      · have hin : unskipped skip (m :: ms) = m :: unskipped skip ms := by
          simp only [unskipped, List.filter_cons, hk, Option.any_some,
            Bool.eq_false_iff.mpr hskip, Bool.not_false, if_true]
        rw [hin]
        constructor
        · rintro ⟨y, hstep, hrest⟩
          rw [gatherStep, if_neg hskip] at hstep
          obtain ⟨x, hx, rfl⟩ := hstep
          obtain ⟨hread, xs, rfl, hall⟩ := ih.mp hrest
          refine ⟨hread, (k, x) :: xs, ?_, .cons ⟨hk, hx⟩ hall⟩
          rw [List.reverse_cons, List.append_assoc]
          rfl
        · rintro ⟨hread, _, rfl, hall⟩
          cases hall with
          | @cons _ x _ xs hx hall =>
            obtain ⟨name, v⟩ := x
            obtain ⟨hname, hv⟩ := hx
            obtain rfl : k = name := Option.some.inj (hk.symm.trans hname)
            refine ⟨(k, v) :: done, ?_, ih.mpr ⟨hread, xs, ?_, hall⟩⟩
            · rw [gatherStep, if_neg hskip]
              exact ⟨v, hv, rfl⟩
            · rw [List.reverse_cons, List.append_assoc]
              rfl

theorem unskipped_false (ms : List (List Char × Tree)) : unskipped (fun _ => false) ms = ms := by
  unfold unskipped
  rw [List.filter_eq_self]
  intro m _
  cases keyName m.1 <;> rfl

/-- Members whose keys and trees can be read have readable keys. -/
theorem keysRead_of_entails {α : Type} {M : Meaning α} {ms : List (List Char × Tree)}
    {xs : List (String × α)} (h : List.Forall₂ (Entails M) ms xs) : KeysRead ms := by
  induction h with
  | nil => exact List.forall_mem_nil _
  | cons hm _ ih =>
    refine List.forall_mem_cons.mpr ⟨?_, ih⟩
    rw [hm.1]
    rfl

theorem Reads.steps_collect {α : Type} {r : Reader α} {M : Meaning α} (hr : Reads r M) :
    Steps (.collect r) (gatherStep (fun _ => false) M) := by
  intro t k a b w rest u xs ys hw ha hb hrest
  rw [collect_run_eq_ok_iff, gatherStep, if_neg (by decide)]
  constructor
  · rintro ⟨x, hx, rfl⟩
    obtain ⟨rfl, hm⟩ := (hr.afterColon_iff hw ha hb hrest).mp hx
    exact ⟨rfl, x, hm, rfl⟩
  · rintro ⟨rfl, x, hm, rfl⟩
    exact ⟨x, (hr.afterColon_iff hw ha hb hrest).mpr ⟨rfl, hm⟩, rfl⟩

/-- An object is read entry by entry, with its closing bracket. -/
theorem WritesMembers.objectRest_iff {α : Type} {r : Reader α} {M : Meaning α} (hr : Reads r M)
    {ms : List (List Char × Tree)} {x : List Char} (h : WritesMembers true ms x)
    {rest u : List Char} {xs : List (String × α)} :
    objectRest r (x ++ rest) = .ok (xs, u) ↔ u = rest ∧ List.Forall₂ (Entails M) ms xs := by
  have hloop : ∀ {v : List Char} {zs : List (String × α)},
      members (.collect r) true [] (x ++ rest) = .ok (zs, v) ↔ v = '\x7d' :: rest ∧
        ∃ xs, zs = xs.reverse ∧ List.Forall₂ (Entails M) ms xs := by
    intro v zs
    rw [h.members_iff hr.steps_collect, runs_gather_iff, unskipped_false]
    constructor
    · rintro ⟨rfl, -, xs, rfl, hall⟩
      exact ⟨rfl, xs, List.append_nil _, hall⟩
    · rintro ⟨rfl, xs, rfl, hall⟩
      exact ⟨rfl, keysRead_of_entails hall, xs, (List.append_nil _).symm, hall⟩
  constructor
  · intro ho
    obtain ⟨zs, hz, rfl⟩ := of_mapped ho
    obtain ⟨v, hv, hc⟩ := of_closed hz
    obtain ⟨rfl, xs, rfl, hall⟩ := hloop.mp hv
    rw [closeObject_closer] at hc
    cases hc
    exact ⟨rfl, by rw [List.reverse_reverse]; exact hall⟩
  · rintro ⟨rfl, hall⟩
    rw [objectRest, hloop.mpr ⟨rfl, xs, rfl, hall⟩, closed_ok (closeObject_closer _), mapped,
      List.reverse_reverse]

/-! ### Values -/

/-- What the tree means as a value, with room for this many open brackets. -/
def Tree.Means : Nat → Meaning Value
  | _, .scalar w, .scalar v => head w = .ok (.scalar v [])
  | room + 1, .list ts, .list vs => List.Forall₂ (Tree.Means room) ts vs
  | room + 1, .object ms, .object xs => List.Forall₂ (Entails (Tree.Means room)) ms xs
  | _, _, _ => False

/-- The tree means some value. -/
def Tree.Readable (room : Nat) (t : Tree) : Prop := ∃ v, t.Means room v

/-! ### Readable trees -/

theorem readable_of_forall₂ {room : Nat} {ts : List Tree} {vs : List Value}
    (h : List.Forall₂ (Tree.Means room) ts vs) : ∀ t ∈ ts, t.Readable room := by
  induction h with
  | nil => exact List.forall_mem_nil _
  | cons hv _ ih => exact List.forall_mem_cons.mpr ⟨⟨_, hv⟩, ih⟩

theorem readable_of_entails {room : Nat} {ms : List (List Char × Tree)}
    {xs : List (String × Value)} (h : List.Forall₂ (Entails (Tree.Means room)) ms xs) :
    ∀ m ∈ ms, m.2.Readable room := by
  induction h with
  | nil => exact List.forall_mem_nil _
  | cons hv _ ih => exact List.forall_mem_cons.mpr ⟨⟨_, hv.2⟩, ih⟩

theorem exists_forall₂_of_readable {room : Nat} {ts : List Tree}
    (h : ∀ t ∈ ts, t.Readable room) : ∃ vs, List.Forall₂ (Tree.Means room) ts vs := by
  induction ts with
  | nil => exact ⟨[], .nil⟩
  | cons t ts ih =>
    obtain ⟨⟨v, hv⟩, hrest⟩ := List.forall_mem_cons.mp h
    obtain ⟨vs, hvs⟩ := ih hrest
    exact ⟨v :: vs, .cons hv hvs⟩

theorem exists_entails_of_readable {room : Nat} {ms : List (List Char × Tree)}
    (hread : KeysRead ms) (h : ∀ m ∈ ms, m.2.Readable room) :
    ∃ xs, List.Forall₂ (Entails (Tree.Means room)) ms xs := by
  induction ms with
  | nil => exact ⟨[], .nil⟩
  | cons m ms ih =>
    obtain ⟨hkey, hkeys⟩ := List.forall_mem_cons.mp hread
    obtain ⟨k, hk⟩ := Option.isSome_iff_exists.mp hkey
    obtain ⟨⟨v, hv⟩, hrest⟩ := List.forall_mem_cons.mp h
    obtain ⟨xs, hxs⟩ := ih hkeys hrest
    exact ⟨(k, v) :: xs, .cons ⟨hk, hv⟩ hxs⟩

theorem readable_scalar_iff {room : Nat} {w : List Char} :
    (Tree.scalar w).Readable room ↔ ∃ v, head w = .ok (.scalar v []) := by
  constructor
  · rintro ⟨v, hv⟩
    cases v with
    | scalar v => exact ⟨v, by rwa [Tree.Means] at hv⟩
    | list => cases room <;> exact hv.elim
    | object => cases room <;> exact hv.elim
  · rintro ⟨v, hv⟩
    exact ⟨.scalar v, by rwa [Tree.Means]⟩

theorem means_of_list {room : Nat} {ts : List Tree} {v : Value}
    (h : (Tree.list ts).Means room v) :
    room ≠ 0 ∧ ∃ vs, v = .list vs ∧ List.Forall₂ (Tree.Means (room - 1)) ts vs := by
  cases room with
  | zero => cases v <;> exact h.elim
  | succ less =>
    cases v with
    | scalar => exact h.elim
    | list vs => exact ⟨Nat.succ_ne_zero less, vs, rfl, h⟩
    | object => exact h.elim

theorem means_of_object {room : Nat} {ms : List (List Char × Tree)} {v : Value}
    (h : (Tree.object ms).Means room v) :
    room ≠ 0 ∧ ∃ xs, v = .object xs ∧
      List.Forall₂ (Entails (Tree.Means (room - 1))) ms xs := by
  cases room with
  | zero => cases v <;> exact h.elim
  | succ less =>
    cases v with
    | scalar => exact h.elim
    | list => exact h.elim
    | object xs => exact ⟨Nat.succ_ne_zero less, xs, rfl, h⟩

/-- A list is readable if its entries are, with one bracket less. -/
theorem readable_list_iff {room : Nat} {ts : List Tree} :
    (Tree.list ts).Readable room ↔ room ≠ 0 ∧ ∀ t ∈ ts, t.Readable (room - 1) := by
  constructor
  · rintro ⟨v, hv⟩
    obtain ⟨hroom, vs, -, hall⟩ := means_of_list hv
    exact ⟨hroom, readable_of_forall₂ hall⟩
  · rintro ⟨hroom, h⟩
    obtain ⟨less, rfl⟩ := Nat.exists_eq_succ_of_ne_zero hroom
    obtain ⟨vs, hvs⟩ := exists_forall₂_of_readable h
    exact ⟨.list vs, hvs⟩

/-- An object is readable if its keys are names and its values are readable, with one
bracket less. -/
theorem readable_object_iff {room : Nat} {ms : List (List Char × Tree)} :
    (Tree.object ms).Readable room ↔
      room ≠ 0 ∧ KeysRead ms ∧ ∀ m ∈ ms, m.2.Readable (room - 1) := by
  constructor
  · rintro ⟨v, hv⟩
    obtain ⟨hroom, xs, -, hall⟩ := means_of_object hv
    exact ⟨hroom, keysRead_of_entails hall, readable_of_entails hall⟩
  · rintro ⟨hroom, hkeys, h⟩
    obtain ⟨less, rfl⟩ := Nat.exists_eq_succ_of_ne_zero hroom
    obtain ⟨xs, hxs⟩ := exists_entails_of_readable hkeys h
    exact ⟨.object xs, hxs⟩

/-! ### Reading values -/

/-- What is read at a list is the bracket. -/
theorem head_list {a x : List Char} (ha : Blank a) (rest : List Char) :
    head (a ++ ('[' :: x ++ rest)) = .ok (.list (x ++ rest)) := head_blank ha

theorem head_object {a x : List Char} (ha : Blank a) (rest : List Char) :
    head (a ++ ('\x7b' :: x ++ rest)) = .ok (.object (x ++ rest)) := head_blank ha

theorem head_token {w a rest : List Char} (hw : IsToken w) (ha : Blank a)
    (hr : EndsNumber rest) {x : Head} :
    head (a ++ (w ++ rest)) = .ok x ↔ ∃ v, x = .scalar v rest ∧ head w = .ok (.scalar v []) := by
  rw [head_blank ha]
  exact hw.head_eq_ok_iff hr

theorem IsToken.not_list {w a rest t : List Char} (hw : IsToken w) (ha : Blank a)
    (hr : EndsNumber rest) : head (a ++ (w ++ rest)) ≠ .ok (.list t) := by
  intro h
  obtain ⟨_, he, -⟩ := (head_token hw ha hr).mp h
  cases he

theorem IsToken.not_object {w a rest t : List Char} (hw : IsToken w) (ha : Blank a)
    (hr : EndsNumber rest) : head (a ++ (w ++ rest)) ≠ .ok (.object t) := by
  intro h
  obtain ⟨_, he, -⟩ := (head_token hw ha hr).mp h
  cases he

theorem reads_value_step {room : Nat}
    (h : ∀ less, room = less + 1 → Reads (Value.reader less) (Tree.Means less)) :
    Reads (Value.reader room) (Tree.Means room) := by
  intro t a w rest u v hw ha hr
  rw [value_reader_eq_ok_iff]
  cases hw with
  | scalar htoken =>
    constructor
    · intro hs
      cases hs with
      | scalar hh =>
        obtain ⟨v', he, hv⟩ := (head_token htoken ha hr).mp hh
        cases he
        exact ⟨rfl, by rw [Tree.Means]; exact hv⟩
      | list hh => exact (htoken.not_list ha hr hh).elim
      | object hh => exact (htoken.not_object ha hr hh).elim
    · rintro ⟨rfl, hm⟩
      cases v with
      | scalar v =>
        rw [Tree.Means] at hm
        exact .scalar ((head_token htoken ha hr).mpr ⟨v, rfl, hm⟩)
      | list => cases room <;> exact hm.elim
      | object => cases room <;> exact hm.elim
  | @list ts x hx =>
    have hhead := head_list (x := x) ha rest
    constructor
    · intro hs
      cases hs with
      | scalar hh => cases hh.symm.trans hhead
      | @list less _ _ _ _ vs hh hi hc =>
        cases hh.symm.trans hhead
        exact (hx.listRest_iff (h less rfl)).mp (listRest_eq_ok_iff.mpr ⟨_, hi, hc⟩)
      | object hh => cases hh.symm.trans hhead
    · rintro ⟨rfl, hm⟩
      obtain ⟨hroom, vs, rfl, hall⟩ := means_of_list hm
      obtain ⟨less, rfl⟩ := Nat.exists_eq_succ_of_ne_zero hroom
      obtain ⟨_, hi, hc⟩ :=
        listRest_eq_ok_iff.mp ((hx.listRest_iff (h less rfl)).mpr ⟨rfl, hall⟩)
      exact .list hhead hi hc
  | @object ms x hx =>
    have hhead := head_object (x := x) ha rest
    constructor
    · intro hs
      cases hs with
      | scalar hh => cases hh.symm.trans hhead
      | list hh => cases hh.symm.trans hhead
      | @object less _ _ _ _ xs hh hm hc =>
        cases hh.symm.trans hhead
        exact (hx.objectRest_iff (h less rfl)).mp (objectRest_eq_ok_iff.mpr ⟨_, hm, hc⟩)
    · rintro ⟨rfl, hm⟩
      obtain ⟨hroom, xs, rfl, hall⟩ := means_of_object hm
      obtain ⟨less, rfl⟩ := Nat.exists_eq_succ_of_ne_zero hroom
      obtain ⟨_, hms, hc⟩ :=
        objectRest_eq_ok_iff.mp ((hx.objectRest_iff (h less rfl)).mpr ⟨rfl, hall⟩)
      exact .object hhead hms hc

/-- A reader of values reads what the tree means. -/
theorem reads_value (room : Nat) : Reads (Value.reader room) (Tree.Means room) := by
  induction room with
  | zero => exact reads_value_step fun _ h => absurd h (by omega)
  | succ room ih =>
    refine reads_value_step fun less h => ?_
    cases h
    exact ih

end Json
end ModelStubs
