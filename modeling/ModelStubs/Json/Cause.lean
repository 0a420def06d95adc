/-
# What can be wrong with a JSON text

A text is refused either because it breaks the grammar of JSON or because the
value it spells is not of the shape that was asked for. `Cause` lists both kinds,
and `Cause.message` is the only place that words them.

Key definitions: `Json.Found`, `Json.Wanted`, `Json.Cause`, `Json.Cause.message`.
-/
import ModelStubs.Decimal.Layout
import ModelStubs.Text.Shown

namespace ModelStubs
namespace Json

/-- The kind of value that stands in the text, with the value if it is a scalar. -/
inductive Found
  | null
  | flag (b : Bool)
  | natural (n : Nat)
  | negative (n : Nat)
  | real (x : Float)
  | text (s : String)
  | list
  | object
deriving Repr

/-- The kind of value that was asked for. -/
inductive Wanted
  | text
  | count
  | flag
  | list
  | record (name : String)
  | tagged (name : String)
  | label
deriving DecidableEq, Repr

/-- Why a text is refused. -/
inductive Cause
  /-- The text ends where a value is due, or inside a word or number. -/
  | valueEnds
  /-- The text ends inside a quoted string. -/
  | textEnds
  /-- The text ends inside a list. -/
  | listEnds
  /-- The text ends inside an object. -/
  | objectEnds
  | expectedColon
  | expectedListEnd
  | expectedObjectEnd
  | expectedWord
  | expectedValue
  | badEscape
  | badNumber
  | numberTooLarge
  | controlCharacter
  | keyNotText
  | loneSurrogate
  | halfEscape
  | commaAtEnd
  | trailing
  | tooDeep
  /-- The value is of another kind. -/
  | wrongKind (found : Found) (wanted : Wanted)
  /-- The number is of the right kind and too large or negative. -/
  | outOfRange (found : Found) (wanted : Wanted)
  /-- A record given as a list ends before a field without a default. -/
  | tooFew (length : Nat) (record : String) (fields : Nat)
  /-- A record given as a list has more entries than fields. -/
  | tooMany (length : Nat) (fields : Nat)
  | missing (field : String)
  | duplicate (field : String)
  | unknownLabel (label : String) (known : List String)
deriving Repr

/-- A value as a message names it. -/
def Found.message : Found → String
  | null => "null"
  | flag b => "boolean `" ++ (if b then "true" else "false") ++ "`"
  | natural n => "integer `" ++ toString n ++ "`"
  | negative n => "integer `-" ++ toString n ++ "`"
  | real x => "floating point `" ++ Decimal.floatText x ++ "`"
  | text s => "string " ++ Text.shown s
  | list => "sequence"
  | object => "map"

/-- What was asked for as a message names it. -/
def Wanted.message : Wanted → String
  | text => "a string"
  | count => "u32"
  | flag => "a boolean"
  | list => "a sequence"
  | record name => "struct " ++ name
  | tagged name => "internally tagged enum " ++ name
  | label => "variant identifier"

/-- A number of elements in words. -/
def elements (n : Nat) : String :=
  if n = 1 then "1 element" else toString n ++ " elements"

/-- The names that would have been understood. -/
def oneOf : List String → String
  | [] => "there are no variants"
  | [a] => "expected `" ++ a ++ "`"
  | [a, b] => "expected `" ++ a ++ "` or `" ++ b ++ "`"
  | names => "expected one of " ++ ", ".intercalate (names.map fun a => "`" ++ a ++ "`")

/-- The wording of a cause. -/
def Cause.message : Cause → String
  | valueEnds => "EOF while parsing a value"
  | textEnds => "EOF while parsing a string"
  | listEnds => "EOF while parsing a list"
  | objectEnds => "EOF while parsing an object"
  | expectedColon => "expected `:`"
  | expectedListEnd => "expected `,` or `]`"
  | expectedObjectEnd => "expected `,` or `\x7d`"
  | expectedWord => "expected ident"
  | expectedValue => "expected value"
  | badEscape => "invalid escape"
  | badNumber => "invalid number"
  | numberTooLarge => "number out of range"
  | controlCharacter => "control character (\\u0000-\\u001F) found while parsing a string"
  | keyNotText => "key must be a string"
  | loneSurrogate => "lone leading surrogate in hex escape"
  | halfEscape => "unexpected end of hex escape"
  | commaAtEnd => "trailing comma"
  | trailing => "trailing characters"
  | tooDeep => "recursion limit exceeded"
  | wrongKind found wanted => "invalid type: " ++ found.message ++ ", expected " ++ wanted.message
  | outOfRange found wanted => "invalid value: " ++ found.message ++ ", expected " ++ wanted.message
  | tooFew length record fields =>
    "invalid length " ++ toString length ++ ", expected struct " ++ record ++ " with " ++
      elements fields
  | tooMany length fields =>
    "invalid length " ++ toString length ++ ", expected " ++ elements fields ++ " in sequence"
  | missing field => "missing field `" ++ field ++ "`"
  | duplicate field => "duplicate field `" ++ field ++ "`"
  | unknownLabel label known => "unknown variant `" ++ label ++ "`, " ++ oneOf known

end Json
end ModelStubs
