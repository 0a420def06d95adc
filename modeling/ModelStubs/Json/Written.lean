/-
# Writing values

A value is written on one line without spaces (`Value.compact`), or with every
entry on a line of its own, two spaces deeper than its bracket (`Value.pretty`).

Key definitions: `Json.Scalar.written`, `Json.Value.compact`, `Json.Value.pretty`,
`Json.Shape.compact`, `Json.Shape.pretty`.
-/
import ModelStubs.Json.Shape
import ModelStubs.Text.Pieces

namespace ModelStubs
namespace Json

/-- A number in decimal digits. -/
def Number.written : Number → List Char
  | natural n => Nat.toDigits 10 n
  | negative n => '-' :: Nat.toDigits 10 n
  | real x => (Decimal.floatText x).toList

/-- A scalar as it is written. -/
def Scalar.written : Scalar → List Char
  | null => ['n', 'u', 'l', 'l']
  | flag true => ['t', 'r', 'u', 'e']
  | flag false => ['f', 'a', 'l', 's', 'e']
  | number n => n.written
  | text s => quote s

mutual
/-- A value on one line. -/
def Value.compact : Value → List Char
  | .scalar v => v.written
  | .list vs => '[' :: Text.joined ',' (compactAll vs) ++ [']']
  | .object ms => '\x7b' :: Text.joined ',' (compactMembers ms) ++ ['\x7d']

/-- The entries of a list. -/
def compactAll : List Value → List (List Char)
  | [] => []
  | v :: vs => v.compact :: compactAll vs

/-- The entries of an object, each behind its key. -/
def compactMembers : List (String × Value) → List (List Char)
  | [] => []
  | (k, v) :: ms => (quote k ++ ':' :: v.compact) :: compactMembers ms
end

/-- A new line with the given number of steps of two spaces. -/
def newLine (depth : Nat) : List Char := '\n' :: List.replicate (2 * depth) ' '

/-- The entries in a bracket at the given depth, on a line each. -/
def block (opening closing : Char) (depth : Nat) (entries : List (List Char)) : List Char :=
  if entries.isEmpty then [opening, closing]
  else
    opening :: Text.joined ',' (entries.map (newLine (depth + 1) ++ ·)) ++
      newLine depth ++ [closing]

mutual
/-- A value on several lines, inside the given number of brackets. -/
def Value.pretty (depth : Nat) : Value → List Char
  | .scalar v => v.written
  | .list vs => block '[' ']' depth (prettyAll (depth + 1) vs)
  | .object ms => block '\x7b' '\x7d' depth (prettyMembers (depth + 1) ms)

/-- The entries of a list. -/
def prettyAll (depth : Nat) : List Value → List (List Char)
  | [] => []
  | v :: vs => v.pretty depth :: prettyAll depth vs

/-- The entries of an object, each behind its key. -/
def prettyMembers (depth : Nat) : List (String × Value) → List (List Char)
  | [] => []
  | (k, v) :: ms => (quote k ++ [':', ' '] ++ v.pretty depth) :: prettyMembers depth ms
end

/-- The text of a value of the shape on one line. -/
def Shape.compact {α : Type} (s : Shape α) (a : α) : String := String.ofList (s.encode a).compact

/-- The text of a value of the shape on several lines. -/
def Shape.pretty {α : Type} (s : Shape α) (a : α) : String := String.ofList ((s.encode a).pretty 0)

end Json
end ModelStubs
