/-
# Reports

What a command tells its user: lines for the output and lines for the error output,
with some pieces set off by colour or weight. Where the receiver shows no colours
the pieces are written as they are.

Key definitions: `Project.Style`, `Project.Piece`, `Project.Line`, `Project.Report`,
`Project.Report.text`.
-/
namespace ModelStubs
namespace Project

/-- The colours that pieces are set off by. -/
inductive Colour
  | red
  | green
  | yellow
  | brightBlue
  | brightWhite
deriving DecidableEq, Repr

/-- The number of a colour on a terminal. -/
def Colour.code : Colour → String
  | red => "31"
  | green => "32"
  | yellow => "33"
  | brightBlue => "94"
  | brightWhite => "97"

/-- A colour, in bold or not. -/
structure Style where
  bold : Bool
  colour : Colour
deriving DecidableEq, Repr

/-- The sequence that turns a style on. -/
def Style.on (s : Style) : String :=
  "\x1b[" ++ (if s.bold then "1;" else "") ++ s.colour.code ++ "m"

/-- The sequence that turns every style off. -/
def Style.off : String := "\x1b[0m"

/-- A piece of a line. -/
inductive Piece
  | plain (text : String)
  | styled (style : Style) (text : String)
deriving DecidableEq, Repr

/-- The text with the style turned on again behind every place that turns it off. -/
def restored (style : Style) : List Char → List Char
  | [] => []
  | c :: s =>
    if Style.off.toList.isPrefixOf (c :: s) then
      Style.off.toList ++ style.on.toList ++ restored style (s.drop (Style.off.length - 1))
    else c :: restored style s
termination_by s => s.length
decreasing_by
  · simp only [List.length_drop, List.length_cons]; omega
  · simp

/-- A piece as it is written, with colours or without. -/
def Piece.text (colours : Bool) : Piece → String
  | plain s => s
  | styled style s =>
    if colours then style.on ++ String.ofList (restored style s.toList) ++ Style.off else s

/-- Where a line goes. -/
inductive Stream
  | out
  | err
deriving DecidableEq, Repr

/-- A line and where it goes. -/
structure Line where
  stream : Stream
  pieces : List Piece
deriving DecidableEq, Repr

/-- The lines of a command in their order. -/
abbrev Report : Type := List Line

namespace Line

/-- A line of output. -/
def out (pieces : List Piece) : Line := ⟨.out, pieces⟩

/-- A line of the error output. -/
def err (pieces : List Piece) : Line := ⟨.err, pieces⟩

/-- A line of output without styles. -/
def plain (s : String) : Line := out [.plain s]

/-- The line with its end. -/
def text (colours : Bool) (l : Line) : String :=
  String.join (l.pieces.map (Piece.text colours)) ++ "\n"

end Line

/-- What a report writes to a stream. -/
def Report.text (r : Report) (colours : Bool) (stream : Stream) : String :=
  String.join ((r.filter fun l => l.stream == stream).map (Line.text colours))

/-- A green piece. -/
def green (s : String) : Piece := .styled ⟨false, .green⟩ s

/-- A red piece. -/
def red (s : String) : Piece := .styled ⟨false, .red⟩ s

/-- A yellow piece. -/
def yellow (s : String) : Piece := .styled ⟨false, .yellow⟩ s

/-- A heading. -/
def heading (s : String) : Piece := .styled ⟨true, .brightBlue⟩ s

end Project
end ModelStubs
