/-
# Readers and what stands in brackets

A reader takes a value off the front of a text. It carries the proof that it takes
at least one character, so that the loops over the entries of a list or object
end because the text gets shorter.

`items` reads the entries of a list, `members` those of an object; both leave the
closing bracket. `closed` then takes the bracket and gives a floating stop its
place.

Key definitions: `Json.Reader`, `Json.MemberReader`, `Json.items`, `Json.members`,
`Json.closed`.
Key theorems: `Json.items_length`, `Json.members_length`, `Json.of_closed`.
-/
import ModelStubs.Json.Skip

namespace ModelStubs
namespace Json

/-- A reader of values at the front of a text. -/
structure Reader (α : Type) where
  run : List Char → Except Stop (α × List Char)
  shortens : ∀ {s t : List Char} {a : α}, run s = .ok (a, t) → t.length < s.length

/-- A reader of the value that belongs to a key, which was read before the text.
What was read before is the state. -/
structure MemberReader (σ : Type) where
  run : σ → String → List Char → Except Stop (σ × List Char)
  keeps : ∀ {x y : σ} {k : String} {s t : List Char}, run x k s = .ok (y, t) → t.length ≤ s.length

/-- What stands next in a bracket. -/
inductive Next
  /-- The closing bracket, with which the text starts. -/
  | ended (s : List Char)
  /-- An entry, with which the text starts. -/
  | more (s : List Char)

/-- The text at the bracket or entry. -/
def Next.text : Next → List Char
  | ended s => s
  | more s => s

/-- Looks for the next entry of a list. A comma stands before all but the first. -/
def nextItem (first : Bool) (s : List Char) : Except Stop Next :=
  match skipSpace s with
  | [] => .error (.on .listEnds [])
  | c :: t =>
    if c = ']' then .ok (.ended (c :: t))
    else if first then .ok (.more (c :: t))
    else if c = ',' then
      match skipSpace t with
      | [] => .error (.on .valueEnds [])
      | d :: u => if d = ']' then .error (.on .commaAtEnd (d :: u)) else .ok (.more (d :: u))
    else .error (.on .expectedListEnd (c :: t))

theorem nextItem_length {first : Bool} {s : List Char} {x : Next}
    (h : nextItem first s = .ok x) : x.text.length ≤ s.length := by
  unfold nextItem at h
  have hs := skipSpace_length s
  split at h
  · cases h
  · next c t ht =>
    rw [ht] at hs
    split at h
    · cases h; exact hs
    · split at h
      · cases h; exact hs
      · split at h
        · have hu := skipSpace_length t
          split at h
          · cases h
          · next d u hd =>
            rw [hd] at hu
            split at h
            · cases h
            · cases h
              simp only [Next.text, List.length_cons] at hs hu ⊢
              omega
        · cases h

/-- Reads entries of a list up to the closing bracket; `done` holds the earlier
ones in reverse. -/
def items {α : Type} (item : Reader α) (first : Bool) (done : List α) (s : List Char) :
    Except Stop (List α × List Char) :=
  match _h : nextItem first s with
  | .error e => .error e
  | .ok (.ended t) => .ok (done.reverse, t)
  | .ok (.more t) =>
    match _hi : item.run t with
    | .error e => .error e
    | .ok (a, u) => items item false (a :: done) u
termination_by s.length
decreasing_by
  have h1 := nextItem_length _h
  have h2 := item.shortens _hi
  exact Nat.lt_of_lt_of_le h2 h1

theorem items_length {α : Type} {item : Reader α} {first : Bool} {done as : List α}
    {s t : List Char} (h : items item first done s = .ok (as, t)) : t.length ≤ s.length := by
  fun_induction items item first done s with
  | case1 => cases h
  | case2 _ _ _ _ hn => cases h; exact nextItem_length hn
  | case3 => cases h
  | case4 _ _ _ _ hn _ _ hi ih =>
    have h1 := nextItem_length hn
    have h2 := item.shortens hi
    have h3 := ih h
    simp only [Next.text] at h1
    omega

/-- The key that the text starts with. -/
def keyText : List Char → Except Stop (String × List Char)
  | [] => .error (.on .keyNotText [])
  | c :: s =>
    if c = '"' then
      match quoted [] s with
      | .error e => .error e
      | .ok (k, t) => .ok (String.ofList k, t)
    else .error (.on .keyNotText (c :: s))

theorem keyText_shortens {s t : List Char} {k : String} (h : keyText s = .ok (k, t)) :
    t.length < s.length := by
  unfold keyText at h
  split at h
  · cases h
  · split at h
    · split at h
      · cases h
      · next hq => cases h; exact Nat.lt_succ_of_lt (quoted_shortens hq)
    · cases h

/-- Looks for the next entry of an object. A comma stands before all but the
first. -/
def nextMember (first : Bool) (s : List Char) : Except Stop Next :=
  match skipSpace s with
  | [] => .error (.on .objectEnds [])
  | c :: t =>
    if c = '\x7d' then .ok (.ended (c :: t))
    else if first then .ok (.more (c :: t))
    else if c = ',' then
      match skipSpace t with
      | [] => .error (.on .valueEnds [])
      | d :: u => if d = '\x7d' then .error (.on .commaAtEnd (d :: u)) else .ok (.more (d :: u))
    else .error (.on .expectedObjectEnd (c :: t))

theorem nextMember_length {first : Bool} {s : List Char} {x : Next}
    (h : nextMember first s = .ok x) : x.text.length ≤ s.length := by
  unfold nextMember at h
  have hs := skipSpace_length s
  split at h
  · cases h
  · next c t ht =>
    rw [ht] at hs
    split at h
    · cases h; exact hs
    · split at h
      · cases h; exact hs
      · split at h
        · have hu := skipSpace_length t
          split at h
          · cases h
          · next d u hd =>
            rw [hd] at hu
            split at h
            · cases h
            · cases h
              simp only [Next.text, List.length_cons] at hs hu ⊢
              omega
        · cases h

/-- Reads the entries of an object up to the closing bracket. -/
def members {σ : Type} (member : MemberReader σ) (first : Bool) (x : σ) (s : List Char) :
    Except Stop (σ × List Char) :=
  match _h : nextMember first s with
  | .error e => .error e
  | .ok (.ended t) => .ok (x, t)
  | .ok (.more t) =>
    match _hk : keyText t with
    | .error e => .error e
    | .ok (k, u) =>
      match _hm : member.run x k u with
      | .error e => .error e
      | .ok (y, v) => members member false y v
termination_by s.length
decreasing_by
  have h1 := nextMember_length _h
  have h2 := keyText_shortens _hk
  have h3 := member.keeps _hm
  simp only [Next.text] at h1
  omega

theorem members_length {σ : Type} {member : MemberReader σ} {first : Bool} {x y : σ}
    {s t : List Char} (h : members member first x s = .ok (y, t)) : t.length ≤ s.length := by
  fun_induction members member first x s with
  | case1 => cases h
  | case2 _ _ _ _ hn => cases h; exact nextMember_length hn
  | case3 => cases h
  | case4 => cases h
  | case5 _ _ _ _ hn _ _ hk _ _ hm ih =>
    have h1 := nextMember_length hn
    have h2 := keyText_shortens hk
    have h3 := member.keeps hm
    have h4 := ih h
    simp only [Next.text] at h1
    omega

/-- Takes the bracket that closes a list: the stop if it is not there, and the
text where the reader stands afterwards. -/
def closeList (s : List Char) : Option Stop × List Char :=
  match skipSpace s with
  | [] => (some (.on .listEnds []), [])
  | c :: t =>
    if c = ']' then (none, t)
    else if c = ',' then
      let u := skipSpace t
      (some (.on (if u.head? = some ']' then .commaAtEnd else .trailing) u), u)
    else (some (.on .trailing (c :: t)), c :: t)

/-- Takes the bracket that closes an object: the stop if it is not there, and the
text where the reader stands afterwards. -/
def closeObject (s : List Char) : Option Stop × List Char :=
  match skipSpace s with
  | [] => (some (.on .objectEnds []), [])
  | c :: t =>
    if c = '\x7d' then (none, t)
    else (some (.on (if c = ',' then .commaAtEnd else .trailing) (c :: t)), c :: t)

/-- What was read in a bracket, once the bracket is closed. A floating stop gets
the place behind the bracket, or where it was looked for. -/
def closed {α : Type} (close : List Char → Option Stop × List Char) :
    Except Stop (α × List Char) → Except Stop (α × List Char)
  | .ok (a, s) =>
    match close s with
    | (none, t) => .ok (a, t)
    | (some stop, _) => .error stop
  | .error (.floating cause s) => .error (.at cause (close s).2)
  | .error (.placed cause left) => .error (.placed cause left)

theorem closeList_shortens {s t : List Char} (h : closeList s = (none, t)) :
    t.length < s.length := by
  unfold closeList at h
  have hs := skipSpace_length s
  split at h
  · cases h
  · next c u hu =>
    rw [hu] at hs
    split at h
    · cases h; exact hs
    · split at h <;> cases h

theorem closeObject_shortens {s t : List Char} (h : closeObject s = (none, t)) :
    t.length < s.length := by
  unfold closeObject at h
  have hs := skipSpace_length s
  split at h
  · cases h
  · next c u hu =>
    rw [hu] at hs
    split at h
    · cases h; exact hs
    · cases h

/-- What was read before the bracket was taken. -/
theorem of_closed {α : Type} {close : List Char → Option Stop × List Char}
    {r : Except Stop (α × List Char)} {a : α} {t : List Char} (h : closed close r = .ok (a, t)) :
    ∃ s, r = .ok (a, s) ∧ close s = (none, t) := by
  unfold closed at h
  split at h
  · next s =>
    split at h
    · next hc => cases h; exact ⟨s, rfl, hc⟩
    · cases h
  · cases h
  · cases h

end Json
end ModelStubs
