/-
# Scalars and the head of a value

After the spaces in front of it, the head of a value decides what it is: a scalar,
which is read whole, or the bracket that opens a list or an object.

Key definitions: `Json.skipSpace`, `Json.Scalar`, `Json.Head`, `Json.head`.
Key theorems: `Json.head_scalar_shortens`, `Json.head_list_shortens`,
`Json.head_object_shortens`.
-/
import ModelStubs.Json.Quoted
import ModelStubs.Json.Number

namespace ModelStubs
namespace Json

/-- The four characters that may stand between the parts of a text. -/
def isSpace (c : Char) : Bool := c == ' ' || c == '\n' || c == '\t' || c == '\r'

/-- The text without the spaces it starts with. -/
def skipSpace (s : List Char) : List Char := s.dropWhile isSpace

theorem skipSpace_length (s : List Char) : (skipSpace s).length ≤ s.length :=
  (List.dropWhile_sublist isSpace).length_le

/-- What is neither a list nor an object. -/
inductive Scalar
  | null
  | flag (b : Bool)
  | number (n : Number)
  | text (s : String)
deriving Repr

/-- The scalar as a message names it. -/
def Scalar.found : Scalar → Found
  | null => .null
  | flag b => .flag b
  | number n => n.found
  | text s => .text s

/-- Passes over the given letters. -/
def passWord : List Char → List Char → Except Stop (List Char)
  | [], s => .ok s
  | _ :: _, [] => .error (.at .valueEnds [])
  | e :: es, c :: s => if c = e then passWord es s else .error (.on .expectedWord (c :: s))

theorem passWord_length : ∀ {w s t : List Char}, passWord w s = .ok t → t.length ≤ s.length
  | [], s, t, h => by cases h; exact Nat.le_refl _
  | _ :: _, [], t, h => by cases h
  | e :: es, c :: s, t, h => by
    unfold passWord at h
    split at h
    · exact Nat.le_succ_of_le (passWord_length h)
    · cases h

/-- A number and its value. -/
def readNumber (s : List Char) : Except Stop (Number × List Char) :=
  match Literal.scan .valueEnds s with
  | .error e => .error e
  | .ok (l, t) =>
    match l.number with
    | .error unread => .error (.placed .numberTooLarge (bytes t + unread))
    | .ok n => .ok (n, t)

theorem readNumber_shortens {s t : List Char} {n : Number} (h : readNumber s = .ok (n, t)) :
    t.length < s.length := by
  unfold readNumber at h
  split at h
  · cases h
  · next hl =>
    split at h
    · cases h
    · cases h; exact Literal.scan_shortens hl

/-- How a value starts. -/
inductive Head
  /-- A scalar, and what follows it. -/
  | scalar (v : Scalar) (rest : List Char)
  /-- The text behind the bracket of a list. -/
  | list (inner : List Char)
  /-- The text behind the bracket of an object. -/
  | object (inner : List Char)

/-- A word whose first letter was read. -/
def wordHead (v : Scalar) (w s : List Char) : Except Stop Head :=
  match passWord w s with
  | .error e => .error e
  | .ok t => .ok (.scalar v t)

/-- A number. -/
def numberHead (s : List Char) : Except Stop Head :=
  match readNumber s with
  | .error e => .error e
  | .ok (n, t) => .ok (.scalar (.number n) t)

/-- A string behind its opening quote. -/
def textHead (s : List Char) : Except Stop Head :=
  match quoted [] s with
  | .error e => .error e
  | .ok (cs, t) => .ok (.scalar (.text (String.ofList cs)) t)

/-- The head of a value in a text that starts with no space. -/
def headOf : List Char → Except Stop Head
  | [] => .error (.on .valueEnds [])
  | c :: s =>
    if c = 'n' then wordHead .null ['u', 'l', 'l'] s
    else if c = 't' then wordHead (.flag true) ['r', 'u', 'e'] s
    else if c = 'f' then wordHead (.flag false) ['a', 'l', 's', 'e'] s
    else if c = '-' ∨ c.isDigit then numberHead (c :: s)
    else if c = '"' then textHead s
    else if c = '[' then .ok (.list s)
    else if c = '\x7b' then .ok (.object s)
    else .error (.on .expectedValue (c :: s))

/-- The head of a value. -/
def head (s : List Char) : Except Stop Head := headOf (skipSpace s)

/-- What is left behind a head. -/
def Head.rest : Head → List Char
  | scalar _ t => t
  | list t => t
  | object t => t

theorem wordHead_length {v : Scalar} {w s : List Char} {x : Head}
    (h : wordHead v w s = .ok x) : x.rest.length ≤ s.length := by
  unfold wordHead at h
  split at h
  · cases h
  · next hw => cases h; exact passWord_length hw

theorem headOf_shortens {s : List Char} {x : Head} (h : headOf s = .ok x) :
    x.rest.length < s.length := by
  unfold headOf at h
  split at h
  · cases h
  · simp only [List.length_cons]
    repeat' split at h
    · exact Nat.lt_succ_of_le (wordHead_length h)
    · exact Nat.lt_succ_of_le (wordHead_length h)
    · exact Nat.lt_succ_of_le (wordHead_length h)
    · unfold numberHead at h
      split at h
      · cases h
      · next hn => cases h; exact readNumber_shortens hn
    · unfold textHead at h
      split at h
      · cases h
      · next hq => cases h; exact Nat.lt_succ_of_lt (quoted_shortens hq)
    · cases h; exact Nat.lt_succ_self _
    · cases h; exact Nat.lt_succ_self _
    · cases h

/-- A head takes at least one character. -/
theorem head_shortens {s : List Char} {x : Head} (h : head s = .ok x) :
    x.rest.length < s.length :=
  Nat.lt_of_lt_of_le (headOf_shortens h) (skipSpace_length s)

theorem head_scalar_shortens {s t : List Char} {v : Scalar} (h : head s = .ok (.scalar v t)) :
    t.length < s.length := head_shortens h

theorem head_list_shortens {s t : List Char} (h : head s = .ok (.list t)) :
    t.length < s.length := head_shortens h

theorem head_object_shortens {s t : List Char} (h : head s = .ok (.object t)) :
    t.length < s.length := head_shortens h

end Json
end ModelStubs
