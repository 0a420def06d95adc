/-
# Quoted strings

What stands between two quotes: characters other than controls as themselves, a
few after a backslash under a letter, and any code point as one or two groups of
four hexadecimal digits. `quoted` reads such a text up to its closing quote;
`passQuoted` only passes over it, and does not ask whether the groups of digits
pair up to characters. `escaped` writes a character so that it reads back.

Key definitions: `Json.escape`, `Json.quoted`, `Json.passQuoted`, `Json.escaped`.
Key theorems: `Json.escape_shortens`, `Json.quoted_shortens`, `Json.passQuoted_shortens`.
-/
import ModelStubs.Json.Place

namespace ModelStubs
namespace Json

/-- The value of a hexadecimal digit of either case. -/
def hexValue? (c : Char) : Option Nat :=
  if '0' ≤ c ∧ c ≤ '9' then some (c.toNat - '0'.toNat)
  else if 'a' ≤ c ∧ c ≤ 'f' then some (c.toNat - 'a'.toNat + 10)
  else if 'A' ≤ c ∧ c ≤ 'F' then some (c.toNat - 'A'.toNat + 10)
  else none

/-- The stop where four hexadecimal digits are due: the text may end before its
fourth byte, or the four bytes are passed and are no digits. -/
def badHex (s : List Char) : Stop :=
  if bytes s < 4 then .at .textEnds [] else .placed .badEscape (bytes s - 4)

/-- A group of four hexadecimal digits. -/
def hexGroup (s : List Char) : Except Stop (Nat × List Char) :=
  match s with
  | a :: b :: c :: d :: r =>
    match hexValue? a, hexValue? b, hexValue? c, hexValue? d with
    | some a, some b, some c, some d => .ok (((a * 16 + b) * 16 + c) * 16 + d, r)
    | _, _, _, _ => .error (badHex s)
  | _ => .error (badHex s)

theorem hexGroup_shortens {s t : List Char} {n : Nat} (h : hexGroup s = .ok (n, t)) :
    t.length < s.length := by
  unfold hexGroup at h
  split at h
  · split at h
    · cases h; simp; omega
    · cases h
  · cases h

/-- The first half of a character beyond the first 65536. -/
def isLeading (n : Nat) : Bool := 0xD800 ≤ n && n ≤ 0xDBFF

/-- The second half of a character beyond the first 65536. -/
def isTrailing (n : Nat) : Bool := 0xDC00 ≤ n && n ≤ 0xDFFF

/-- The character with the given halves. -/
def joinHalves (leading trailing : Nat) : Char :=
  Char.ofNat (0x10000 + (leading - 0xD800) * 0x400 + (trailing - 0xDC00))

/-- The second half of a character whose first half is `n`. -/
def secondHalf (n : Nat) : List Char → Except Stop (Char × List Char)
  | a :: b :: s =>
    if a = '\\' then
      if b = 'u' then
        match hexGroup s with
        | .error e => .error e
        | .ok (m, t) =>
          if isTrailing m then .ok (joinHalves n m, t)
          else .error (.at .loneSurrogate t)
      else .error (.on .halfEscape (b :: s))
    else .error (.on .halfEscape (a :: b :: s))
  | [a] => .error (if a = '\\' then .at .textEnds [] else .on .halfEscape [a])
  | [] => .error (.at .textEnds [])

theorem secondHalf_shortens {n : Nat} {s t : List Char} {c : Char}
    (h : secondHalf n s = .ok (c, t)) : t.length < s.length := by
  unfold secondHalf at h
  split at h
  · split at h
    · split at h
      · split at h
        · cases h
        · next hm =>
          have := hexGroup_shortens hm
          split at h
          · simp only [Except.ok.injEq, Prod.mk.injEq] at h
            simp only [List.length_cons, ← h.2]
            omega
          · cases h
      · cases h
    · cases h
  · cases h
  · cases h

/-- The character that one group of digits, or two groups that are its halves,
stand for. The text starts behind the first `u`. -/
def codePoint (s : List Char) : Except Stop (Char × List Char) :=
  match hexGroup s with
  | .error e => .error e
  | .ok (n, r) =>
    if isTrailing n then .error (.at .loneSurrogate r)
    else if isLeading n then secondHalf n r
    else .ok (Char.ofNat n, r)

theorem codePoint_shortens {s t : List Char} {c : Char} (h : codePoint s = .ok (c, t)) :
    t.length < s.length := by
  unfold codePoint at h
  split at h
  · cases h
  · next n r hr =>
    have h1 := hexGroup_shortens hr
    split at h
    · cases h
    · split at h
      · exact Nat.lt_trans (secondHalf_shortens h) h1
      · cases h; exact h1

/-- The character that one letter after a backslash stands for. -/
def letterEscape? : Char → Option Char
  | '"' => some '"'
  | '\\' => some '\\'
  | '/' => some '/'
  | 'b' => some '\x08'
  | 'f' => some '\x0c'
  | 'n' => some '\n'
  | 'r' => some '\r'
  | 't' => some '\t'
  | _ => none

/-- The character behind a backslash. -/
def escape : List Char → Except Stop (Char × List Char)
  | [] => .error (.at .textEnds [])
  | c :: s =>
    if c = 'u' then codePoint s
    else
      match letterEscape? c with
      | some d => .ok (d, s)
      | none => .error (.on .badEscape (c :: s))

theorem escape_shortens {s t : List Char} {c : Char} (h : escape s = .ok (c, t)) :
    t.length < s.length := by
  unfold escape at h
  split at h
  · cases h
  · split at h
    · have := codePoint_shortens h
      simp only [List.length_cons]
      omega
    · split at h
      · cases h; simp
      · cases h

/-- Whether a character has to be written after a backslash. -/
def isControl (c : Char) : Bool := c.toNat < 0x20

/-- The characters up to the closing quote, with those read before in reverse. -/
def quoted (done : List Char) (s : List Char) : Except Stop (List Char × List Char) :=
  match s with
  | [] => .error (.at .textEnds [])
  | c :: r =>
    if c = '"' then .ok (done.reverse, r)
    else if c = '\\' then
      match _h : escape r with
      | .error e => .error e
      | .ok (d, t) => quoted (d :: done) t
    else if isControl c then .error (.at .controlCharacter r)
    else quoted (c :: done) r
termination_by s.length
decreasing_by
  · have := escape_shortens _h
    simp only [List.length_cons]
    omega
  · simp

theorem quoted_shortens {done s t u : List Char} (h : quoted done s = .ok (t, u)) :
    u.length < s.length := by
  fun_induction quoted done s with
  | case1 => cases h
  | case2 => cases h; simp
  | case3 => cases h
  | case4 done r d t' he _ ih =>
    have h1 := ih h
    have h2 := escape_shortens he
    simp only [List.length_cons]
    omega
  | case5 => cases h
  | case6 done c r _ _ _ ih =>
    have h1 := ih h
    simp only [List.length_cons]
    omega

/-- Passes over what stands behind a backslash: a letter, or `u` and four
hexadecimal digits. -/
def passEscape : List Char → Except Stop (List Char)
  | [] => .error (.at .textEnds [])
  | c :: s =>
    if c = 'u' then
      match hexGroup s with
      | .error e => .error e
      | .ok (_, t) => .ok t
    else if (letterEscape? c).isSome then .ok s
    else .error (.on .badEscape (c :: s))

theorem passEscape_shortens {s t : List Char} (h : passEscape s = .ok t) :
    t.length < s.length := by
  unfold passEscape at h
  split at h
  · cases h
  · split at h
    · split at h
      · cases h
      · next hx =>
        cases h
        have := hexGroup_shortens hx
        simp only [List.length_cons]
        omega
    · split at h
      · cases h; simp
      · cases h

/-- Passes over the characters up to the closing quote. -/
def passQuoted (s : List Char) : Except Stop (List Char) :=
  match s with
  | [] => .error (.at .textEnds [])
  | c :: r =>
    if c = '"' then .ok r
    else if c = '\\' then
      match _h : passEscape r with
      | .error e => .error e
      | .ok t => passQuoted t
    else if isControl c then .error (.at .controlCharacter (c :: r))
    else passQuoted r
termination_by s.length
decreasing_by
  · have := passEscape_shortens _h
    simp only [List.length_cons]
    omega
  · simp

theorem passQuoted_shortens {s t : List Char} (h : passQuoted s = .ok t) :
    t.length < s.length := by
  fun_induction passQuoted s with
  | case1 => cases h
  | case2 => cases h; simp
  | case3 => cases h
  | case4 r t' he _ ih =>
    have h1 := ih h
    have h2 := passEscape_shortens he
    simp only [List.length_cons]
    omega
  | case5 => cases h
  | case6 c r _ _ _ ih =>
    have h1 := ih h
    simp only [List.length_cons]
    omega

/-- A hexadecimal digit in lower case. -/
def hexDigit (n : Nat) : Char := Nat.digitChar n

/-- A character as it is written between quotes: the quote, the backslash and the
controls after a backslash, all others as themselves. -/
def escaped (c : Char) : List Char :=
  match c with
  | '"' => ['\\', '"']
  | '\\' => ['\\', '\\']
  | '\x08' => ['\\', 'b']
  | '\t' => ['\\', 't']
  | '\n' => ['\\', 'n']
  | '\x0c' => ['\\', 'f']
  | '\r' => ['\\', 'r']
  | c =>
    if isControl c then
      ['\\', 'u', '0', '0', hexDigit (c.toNat / 16), hexDigit (c.toNat % 16)]
    else [c]

/-- A string between quotes. -/
def quote (s : String) : List Char := '"' :: s.toList.flatMap escaped ++ ['"']

end Json
end ModelStubs
