/-
# Numbers

A number is scanned into its parts and then given a value. Whole numbers of 64
bits keep their value; every number with a fraction or an exponent, minus zero,
and every whole number beyond 64 bits becomes a floating point number. Its digits
are taken into one 64-bit word as long as they fit; a power of ten, found from
the digits left out, the fraction and the exponent, is multiplied in.

Key definitions: `Json.Literal`, `Json.Literal.scan`, `Json.Number`, `Json.Literal.number`.
Key theorems: `Json.Literal.scan_shortens`.
-/
import ModelStubs.Json.Place

namespace ModelStubs
namespace Json

/-- The parts of a number as it is spelled. The fraction is empty if there is no
point; the exponent comes with whether it is negative. -/
structure Literal where
  negative : Bool
  whole : List Char
  fraction : List Char
  exponent : Option (Bool × List Char)
deriving DecidableEq, Repr

/-- The digits before the point: a zero alone or digits that start with another.
If the text ends here the cause is `ends`. -/
def scanWhole (ends : Cause) : List Char → Except Stop (List Char × List Char)
  | [] => .error (.at ends [])
  | c :: s =>
    if c = '0' then
      if (s.takeWhile Char.isDigit).isEmpty then .ok ([c], s) else .error (.on .badNumber s)
    else if c.isDigit then .ok (c :: s.takeWhile Char.isDigit, s.dropWhile Char.isDigit)
    else .error (.on .badNumber (c :: s))

/-- A point and at least one digit, or nothing. -/
def scanFraction (ends : Cause) : List Char → Except Stop (List Char × List Char)
  | [] => .ok ([], [])
  | c :: s =>
    if c = '.' then
      if (s.takeWhile Char.isDigit).isEmpty then
        .error (.on (if s.isEmpty then ends else .badNumber) s)
      else .ok (s.takeWhile Char.isDigit, s.dropWhile Char.isDigit)
    else .ok ([], c :: s)

/-- The sign of an exponent, if there is one. -/
def scanSign : List Char → Bool × List Char
  | '-' :: s => (true, s)
  | '+' :: s => (false, s)
  | s => (false, s)

/-- An `e`, a sign and at least one digit, or nothing. -/
def scanExponent (ends : Cause) :
    List Char → Except Stop (Option (Bool × List Char) × List Char)
  | [] => .ok (none, [])
  | c :: s =>
    if c = 'e' ∨ c = 'E' then
      let digits := (scanSign s).2.takeWhile Char.isDigit
      let rest := (scanSign s).2.dropWhile Char.isDigit
      if digits.isEmpty then .error (if rest.isEmpty then .at ends [] else .on .badNumber rest)
      else .ok (some ((scanSign s).1, digits), rest)
    else .ok (none, c :: s)

/-- The parts of the number that the text starts with. If the text ends inside it
the cause is `ends`. -/
def Literal.scan (ends : Cause) (s : List Char) : Except Stop (Literal × List Char) :=
  let (negative, s) := match s with
    | '-' :: r => (true, r)
    | s => (false, s)
  match scanWhole ends s with
  | .error e => .error e
  | .ok (whole, s) =>
    match scanFraction ends s with
    | .error e => .error e
    | .ok (fraction, s) =>
      match scanExponent ends s with
      | .error e => .error e
      | .ok (exponent, s) => .ok (⟨negative, whole, fraction, exponent⟩, s)

theorem scanWhole_shortens {ends : Cause} {s t u : List Char}
    (h : scanWhole ends s = .ok (t, u)) : u.length < s.length := by
  unfold scanWhole at h
  split at h
  · cases h
  · next c r =>
    have := (List.dropWhile_sublist Char.isDigit (l := r)).length_le
    split at h
    · split at h
      · cases h; simp
      · cases h
    · split at h
      · cases h; simp only [List.length_cons]; omega
      · cases h

theorem scanFraction_length {ends : Cause} {s t u : List Char}
    (h : scanFraction ends s = .ok (t, u)) : u.length ≤ s.length := by
  unfold scanFraction at h
  split at h
  · cases h; simp
  · next c r =>
    have := (List.dropWhile_sublist Char.isDigit (l := r)).length_le
    split at h
    · split at h
      · cases h
      · cases h; simp only [List.length_cons]; omega
    · cases h; simp

theorem scanSign_length (s : List Char) : (scanSign s).2.length ≤ s.length := by
  unfold scanSign
  split <;> simp

theorem scanExponent_length {ends : Cause} {s u : List Char} {e : Option (Bool × List Char)}
    (h : scanExponent ends s = .ok (e, u)) : u.length ≤ s.length := by
  unfold scanExponent at h
  split at h
  · cases h; simp
  · next c r =>
    have h1 := scanSign_length r
    have h2 := (List.dropWhile_sublist Char.isDigit (l := (scanSign r).2)).length_le
    split at h
    · simp only at h
      split at h
      · cases h
      · cases h; simp only [List.length_cons]; omega
    · cases h; simp

/-- A number that was scanned is at least one character long. -/
theorem Literal.scan_shortens {ends : Cause} {s t : List Char} {l : Literal}
    (h : Literal.scan ends s = .ok (l, t)) : t.length < s.length := by
  unfold Literal.scan at h
  split at h
  next negative r hr =>
  have h0 : r.length ≤ s.length := by
    split at hr <;> cases hr <;> simp
  split at h
  · cases h
  · next h1 =>
    split at h
    · cases h
    · next h2 =>
      split at h
      · cases h
      · next h3 =>
        cases h
        have := scanWhole_shortens h1
        have := scanFraction_length h2
        have := scanExponent_length h3
        omega

/-- The value of a number. -/
inductive Number
  /-- A whole number from zero. -/
  | natural (n : Nat)
  /-- The number `-n`. -/
  | negative (n : Nat)
  | real (x : Float)
deriving Repr

/-- The number as a message names it. -/
def Number.found : Number → Found
  | natural n => .natural n
  | negative n => .negative n
  | real x => .real x

/-- The value of a decimal digit. -/
def digitValue (c : Char) : Nat := c.toNat - '0'.toNat

/-- Takes digits into a number as long as it stays within the limit; the digits
that are left come second. -/
def absorb (limit n : Nat) : List Char → Nat × List Char
  | [] => (n, [])
  | c :: s =>
    if n * 10 + digitValue c ≤ limit then absorb limit (n * 10 + digitValue c) s
    else (n, c :: s)

/-- The largest number of 64 bits. -/
def largestWord : Nat := UInt64.size - 1

/-- The largest exponent that is looked at. -/
def largestExponent : Nat := (1 <<< 31) - 1

/-- A power of ten as a floating point number. -/
def powerOfTen (n : Nat) : Float := Float.ofScientific 1 false n

/-- The number divided by a power of ten, in steps of at most 308. -/
def lowered (x : Float) (n : Nat) : Float :=
  if n ≤ 308 then x / powerOfTen n
  else if x == 0 then x
  else lowered (x / powerOfTen 308) (n - 308)
termination_by n

/-- The number times a power of ten, unless that is beyond all floating point
numbers. -/
def raised (x : Float) (n : Nat) : Option Float :=
  if n ≤ 308 then
    let y := x * powerOfTen n
    if y.isInf then none else some y
  else if x == 0 then some x
  else none

/-- The number times a positive or negative power of ten. -/
def scaled (word : Nat) (power : Int) : Option Float :=
  if 0 ≤ power then raised word.toUInt64.toFloat power.toNat
  else some (lowered word.toUInt64.toFloat (-power).toNat)

/-- The number with a sign. -/
def signed (negative : Bool) (x : Float) : Number := .real (if negative then -x else x)

/-- A whole number with a sign. Minus zero and numbers below the 64-bit ones are
floating point numbers. -/
def wholeNumber (negative : Bool) (n : Nat) : Number :=
  if negative then
    if n = 0 ∨ 1 <<< 63 < n then signed true n.toUInt64.toFloat else .negative n
  else .natural n

/-- The value of a spelled number. If it is too large the answer is how many of
the exponent's digits were still unread when that was seen. -/
def Literal.number (l : Literal) : Except Nat Number :=
  let (word, beyond) := absorb largestWord 0 l.whole
  if beyond.isEmpty && l.fraction.isEmpty && l.exponent.isNone then
    .ok (wholeNumber l.negative word)
  else
    let (word, unused) := absorb largestWord word l.fraction
    let power : Int := (beyond.length : Int) - ((l.fraction.length : Int) - unused.length)
    match l.exponent with
    | none =>
      match scaled word power with
      | none => .error 0
      | some x => .ok (signed l.negative x)
    | some (below, digits) =>
      let (e, unread) := absorb largestExponent 0 digits
      if unread.isEmpty then
        match scaled word (if below then power - (e : Int) else power + (e : Int)) with
        | none => .error 0
        | some x => .ok (signed l.negative x)
      else if word = 0 || below then .ok (signed l.negative 0)
      else .error (unread.length - 1)

end Json
end ModelStubs
