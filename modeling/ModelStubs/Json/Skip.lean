/-
# Passing over a value

A value that nobody asked for is passed over without building it. The brackets
that are open are kept on a stack, so it may be nested to any depth; numbers are
checked for their spelling only and quoted strings for their escapes only.

Key definitions: `Json.Bracket`, `Json.Phase`, `Json.pass`, `Json.passValue`.
Key theorems: `Json.passValue_shortens`.
-/
import ModelStubs.Json.Head

namespace ModelStubs
namespace Json

/-- What an open bracket encloses. -/
inductive Bracket
  | list
  | object
deriving DecidableEq, Repr

/-- The character that closes a bracket. -/
def Bracket.closer : Bracket → Char
  | list => ']'
  | object => '\x7d'

/-- The cause if the text ends inside a bracket. -/
def Bracket.ends : Bracket → Cause
  | list => .listEnds
  | object => .objectEnds

/-- The cause if neither a comma nor the closing bracket follows an entry. -/
def Bracket.expectedEnd : Bracket → Cause
  | list => .expectedListEnd
  | object => .expectedObjectEnd

/-- What stood before the text that is left. -/
inductive Phase
  /-- A bracket was opened, and nothing stands in it yet. -/
  | opened
  /-- A value is due. -/
  | due
  /-- A value has ended. -/
  | done
deriving DecidableEq, Repr

/-- The order of phases in which no character need be read between them. -/
def Phase.rank : Phase → Nat
  | opened => 1
  | due => 0
  | done => 0

/-- Passes over the colon behind a key. -/
def colon (s : List Char) : Except Stop (List Char) :=
  match skipSpace s with
  | [] => .error (.on .objectEnds [])
  | c :: t => if c = ':' then .ok t else .error (.on .expectedColon (c :: t))

theorem colon_shortens {s t : List Char} (h : colon s = .ok t) : t.length < s.length := by
  unfold colon at h
  have hs := skipSpace_length s
  split at h
  · cases h
  · next c u hu =>
    rw [hu] at hs
    split at h
    · cases h; simp only [List.length_cons] at hs; omega
    · cases h

/-- What stands before the value of an entry: nothing in a list, a key and a colon
in an object. -/
def passKey (b : Bracket) (s : List Char) : Except Stop (List Char) :=
  match b with
  | .list => .ok s
  | .object =>
    match skipSpace s with
    | [] => .error (.on .objectEnds [])
    | c :: t =>
      if c = '"' then
        match passQuoted t with
        | .error e => .error e
        | .ok u => colon u
      else .error (.on .keyNotText (c :: t))

theorem passKey_length {b : Bracket} {s t : List Char} (h : passKey b s = .ok t) :
    t.length ≤ s.length := by
  unfold passKey at h
  have hs := skipSpace_length s
  split at h
  · cases h; exact Nat.le_refl _
  · split at h
    · cases h
    · next c u hu =>
      rw [hu] at hs
      simp only [List.length_cons] at hs
      split at h
      · split at h
        · cases h
        · next hq =>
          have := passQuoted_shortens hq
          have := colon_shortens h
          omega
      · cases h

/-- What passing over the first part of a value leaves to do. -/
inductive Passed
  /-- The value was a scalar. -/
  | scalar (rest : List Char)
  /-- A bracket was opened. -/
  | opened (b : Bracket) (rest : List Char)

/-- The text left behind the first part of a value. -/
def Passed.rest : Passed → List Char
  | scalar t => t
  | opened _ t => t

/-- A scalar is what was passed. -/
def passedScalar : Except Stop (List Char) → Except Stop Passed
  | .error e => .error e
  | .ok t => .ok (.scalar t)

/-- Passes over the spelling of a number. -/
def passNumber (s : List Char) : Except Stop (List Char) :=
  match Literal.scan .badNumber s with
  | .error e => .error e
  | .ok (_, t) => .ok t

/-- Passes over a scalar or an opening bracket. -/
def passHead (s : List Char) : Except Stop Passed :=
  match skipSpace s with
  | [] => .error (.on .valueEnds [])
  | c :: t =>
    if c = 'n' then passedScalar (passWord ['u', 'l', 'l'] t)
    else if c = 't' then passedScalar (passWord ['r', 'u', 'e'] t)
    else if c = 'f' then passedScalar (passWord ['a', 'l', 's', 'e'] t)
    else if c = '-' ∨ c.isDigit then passedScalar (passNumber (c :: t))
    else if c = '"' then passedScalar (passQuoted t)
    else if c = '[' then .ok (.opened .list t)
    else if c = '\x7b' then .ok (.opened .object t)
    else .error (.on .expectedValue (c :: t))

theorem passNumber_shortens {s t : List Char} (h : passNumber s = .ok t) :
    t.length < s.length := by
  unfold passNumber at h
  split at h
  · cases h
  · next hl => cases h; exact Literal.scan_shortens hl

theorem passedScalar_rest {r : Except Stop (List Char)} {x : Passed}
    (h : passedScalar r = .ok x) : r = .ok x.rest := by
  unfold passedScalar at h
  split at h
  · cases h
  · cases h; rfl

theorem passHead_shortens {s : List Char} {x : Passed} (h : passHead s = .ok x) :
    x.rest.length < s.length := by
  unfold passHead at h
  have hs := skipSpace_length s
  split at h
  · cases h
  · next c t ht =>
    rw [ht] at hs
    simp only [List.length_cons] at hs
    repeat' split at h
    · have := passWord_length (passedScalar_rest h); omega
    · have := passWord_length (passedScalar_rest h); omega
    · have := passWord_length (passedScalar_rest h); omega
    · have := passNumber_shortens (passedScalar_rest h)
      simp only [List.length_cons] at this
      omega
    · have := passQuoted_shortens (passedScalar_rest h); omega
    · cases h; exact hs
    · cases h; exact hs
    · cases h

/-- Passes over the rest of a value inside the open brackets, innermost first. -/
def pass (phase : Phase) (brackets : List Bracket) (s : List Char) : Except Stop (List Char) :=
  match phase with
  | .due =>
    match _h : passHead s with
    | .error e => .error e
    | .ok (.scalar t) => pass .done brackets t
    | .ok (.opened b t) => pass .opened (b :: brackets) t
  | .done =>
    match brackets with
    | [] => .ok s
    | b :: bs =>
      match _h : skipSpace s with
      | [] => .error (.on b.ends [])
      | c :: t =>
        if c = b.closer then pass .done bs t
        else if c = ',' then
          match _hk : passKey b t with
          | .error e => .error e
          | .ok u => pass .due (b :: bs) u
        else .error (.on b.expectedEnd (c :: t))
  | .opened =>
    match brackets with
    | [] => .ok s
    | b :: bs =>
      match _h : skipSpace s with
      | [] => .error (.on b.ends [])
      | c :: t =>
        if c = b.closer then pass .done bs t
        else
          match _hk : passKey b (c :: t) with
          | .error e => .error e
          | .ok u => pass .due (b :: bs) u
termination_by (s.length, phase.rank)
decreasing_by
  · have := passHead_shortens _h
    exact Prod.Lex.left _ _ this
  · have := passHead_shortens _h
    exact Prod.Lex.left _ _ this
  · have := skipSpace_length s
    rw [_h] at this
    exact Prod.Lex.left _ _ this
  · have h1 := skipSpace_length s
    have h2 := passKey_length _hk
    rw [_h] at h1
    simp only [List.length_cons] at h1
    exact Prod.Lex.left _ _ (by omega)
  · have := skipSpace_length s
    rw [_h] at this
    exact Prod.Lex.left _ _ this
  · have h1 := skipSpace_length s
    have h2 := passKey_length _hk
    rw [_h] at h1
    rcases Nat.lt_or_eq_of_le (Nat.le_trans h2 h1) with h | h
    · exact Prod.Lex.left _ _ h
    · rw [h]; exact Prod.Lex.right _ (by decide)

/-- Passing a value never lengthens the text, and shortens it if one is due. -/
theorem pass_length {phase : Phase} {brackets : List Bracket} {s t : List Char}
    (h : pass phase brackets s = .ok t) :
    t.length ≤ s.length ∧ (phase = .due → t.length < s.length) := by
  fun_induction pass phase brackets s with
  | case1 => cases h
  | case2 _ _ _ hp ih =>
    have h1 := passHead_shortens hp
    have h2 := (ih h).1
    simp only [Passed.rest] at h1
    exact ⟨by omega, fun _ => by omega⟩
  | case3 _ _ _ _ hp ih =>
    have h1 := passHead_shortens hp
    have h2 := (ih h).1
    simp only [Passed.rest] at h1
    exact ⟨by omega, fun _ => by omega⟩
  | case4 => cases h; exact ⟨Nat.le_refl _, fun h => by cases h⟩
  | case5 => cases h
  | case6 s _ _ _ hs ih =>
    have h1 := skipSpace_length s
    have h2 := (ih h).1
    rw [hs] at h1
    simp only [List.length_cons] at h1
    exact ⟨by omega, fun h => by cases h⟩
  | case7 => cases h
  | case8 s _ _ _ _ hk hs _ ih =>
    have h1 := skipSpace_length s
    have h2 := (ih h).1
    have h3 := passKey_length hk
    rw [hs] at h1
    simp only [List.length_cons] at h1
    exact ⟨by omega, fun h => by cases h⟩
  | case9 => cases h
  | case10 => cases h; exact ⟨Nat.le_refl _, fun h => by cases h⟩
  | case11 => cases h
  | case12 s _ _ _ hs ih =>
    have h1 := skipSpace_length s
    have h2 := (ih h).1
    rw [hs] at h1
    simp only [List.length_cons] at h1
    exact ⟨by omega, fun h => by cases h⟩
  | case13 => cases h
  | case14 s _ _ _ _ hs _ _ hk ih =>
    have h1 := skipSpace_length s
    have h2 := (ih h).1
    have h3 := passKey_length hk
    rw [hs] at h1
    exact ⟨by omega, fun h => by cases h⟩

/-- Passes over one value. -/
def passValue (s : List Char) : Except Stop (List Char) := pass .due [] s

theorem passValue_shortens {s t : List Char} (h : passValue s = .ok t) : t.length < s.length :=
  (pass_length h).2 rfl

end Json
end ModelStubs
