/-
# Places in a text and faults

A place is a line, counted from one, and a column that counts the bytes since the
line began. A reader does not track places: when it stops it knows how many bytes
are left, and `Place.of` finds the place from the whole text.

A reader stops in two ways. Broken grammar is noticed at a place, so the stop is
`placed`. A value of the wrong shape is noticed away from the text and is
`floating` until the innermost bracket around it has been closed; it then gets
the place where the reader stands.

Key definitions: `Json.Place`, `Json.bytes`, `Json.Stop`, `Json.Fault`.
-/
import ModelStubs.Json.Cause

namespace ModelStubs
namespace Json

/-- The number of bytes of a text in UTF-8. -/
def bytes : List Char → Nat
  | [] => 0
  | c :: s => c.utf8Size + bytes s

/-- A line and the bytes before a place on it. -/
structure Place where
  line : Nat
  column : Nat
deriving DecidableEq, Repr

/-- The place after the given number of bytes, from a place on. A place inside a
character counts the bytes of it that were passed. -/
def Place.after (p : Place) : List Char → Nat → Place
  | [], _ => p
  | c :: s, n =>
    if n < c.utf8Size then ⟨p.line, p.column + n⟩
    else if c = '\n' then Place.after ⟨p.line + 1, 0⟩ s (n - 1)
    else Place.after ⟨p.line, p.column + c.utf8Size⟩ s (n - c.utf8Size)

/-- The place in a text with the given number of bytes left behind it. -/
def Place.of (source : List Char) (left : Nat) : Place :=
  Place.after ⟨1, 0⟩ source (bytes source - left)

/-- How a reader stops without a value. -/
inductive Stop
  /-- The grammar is broken where this many bytes are left. -/
  | placed (cause : Cause) (left : Nat)
  /-- The value read has the wrong shape; this text is still to be read. -/
  | floating (cause : Cause) (rest : List Char)
deriving Repr

/-- A stop at the start of the given rest. -/
def Stop.at (cause : Cause) (rest : List Char) : Stop := .placed cause (bytes rest)

/-- A stop just behind the first byte of the given rest, or at the end of the
text. -/
def Stop.on (cause : Cause) (rest : List Char) : Stop := .placed cause (bytes rest - 1)

/-- Why a text is refused, and where. -/
structure Fault where
  cause : Cause
  place : Option Place
deriving Repr

/-- The fault of a stop in the given text. -/
def Stop.fault (source : List Char) : Stop → Fault
  | .placed cause left => ⟨cause, some (Place.of source left)⟩
  | .floating cause _ => ⟨cause, none⟩

/-- The wording of a fault. -/
def Fault.message (f : Fault) : String :=
  match f.place with
  | none => f.cause.message
  | some p => f.cause.message ++ " at line " ++ toString p.line ++ " column " ++ toString p.column

end Json
end ModelStubs
