/-
# Paths

A path is a text with slashes between its parts. What it names is its list of
components: repeated slashes, a slash at the end and inner `.` parts are not
components, so two texts may name the same path.

Key definitions: `Disk.Path`, `Disk.Component`, `Disk.Path.components`,
`Disk.Path.join`, `Disk.Path.parent?`, `Disk.Path.ancestors`.
Key theorems: `Disk.parentPieces_length`.
-/
import ModelStubs.Text.Pieces

namespace ModelStubs
namespace Disk

/-- A path as it is written. -/
structure Path where
  text : String
deriving DecidableEq, Repr, Inhabited

/-- A part of a path. -/
inductive Component
  /-- The top of the file tree, before all others. -/
  | root
  /-- The directory `.` at the start of a path. -/
  | here
  /-- The directory above. -/
  | up
  | name (s : String)
deriving DecidableEq, Repr

namespace Component

/-- The place of the kind of a component in the order of components. -/
def rank : Component → Nat
  | root => 0
  | here => 1
  | up => 2
  | name _ => 3

/-- The name of a component that has one. -/
def label : Component → String
  | name s => s
  | _ => ""

/-- Components are ordered by their kind, and names by their characters. -/
instance : Ord Component := ⟨compareLex (compareOn rank) (compareOn label)⟩

instance : Std.TransOrd Component :=
  inferInstanceAs (Std.TransCmp (compareLex (compareOn rank) (compareOn label)))

instance : Std.LawfulEqOrd Component where
  eq_of_compare {a b} h := by
    have h : (compare a.rank b.rank).then (compare a.label b.label) = .eq := h
    rw [Ordering.then_eq_eq] at h
    obtain ⟨h1, h2⟩ := h
    rw [Std.compare_eq_iff_eq] at h1 h2
    cases a <;> cases b <;> simp_all [rank, label]

end Component

/-- The part that stands for nothing inside a path. -/
def isFiller (p : List Char) : Bool := p.isEmpty || p == ['.']

/-- The component that a part other than a filler is. -/
def componentOf (p : List Char) : Component :=
  if p = ['.', '.'] then .up else .name (String.ofList p)

namespace Path

/-- The parts between the slashes, the empty ones included. -/
def pieces (p : Path) : List (List Char) := Text.pieces '/' p.text.toList

/-- The path starts at the top of the file tree. -/
def isAbsolute (p : Path) : Bool := p.text.toList.head? == some '/'

/-- The components of parts behind the first. -/
def innerComponents (ps : List (List Char)) : List Component :=
  (ps.filter fun p => !isFiller p).map componentOf

/-- What the path names. -/
def components (p : Path) : List Component :=
  if p.isAbsolute then .root :: innerComponents p.pieces
  else
    match p.pieces with
    | ['.'] :: ps => .here :: innerComponents ps
    | ps => innerComponents ps

/-- The second path as seen from the first: below it, unless it is absolute. -/
def join (p q : Path) : Path :=
  if q.isAbsolute || p.text.isEmpty then q
  else if p.text.toList.getLast? = some '/' then ⟨p.text ++ q.text⟩
  else ⟨p.text ++ "/" ++ q.text⟩

/-- The path below this one with the given name. -/
def child (p : Path) (name : String) : Path := p.join ⟨name⟩

/-- The path below this one with the given names. -/
def below (p : Path) (names : List String) : Path := names.foldl child p

end Path

/-- The parts without the fillers at their end. -/
def trimmedPieces (ps : List (List Char)) : List (List Char) :=
  (ps.reverse.dropWhile isFiller).reverse

/-- The parts above the last component, or none if there is no component. -/
def parentPieces (ps : List (List Char)) : Option (List (List Char)) :=
  match ps.reverse.dropWhile isFiller with
  | [] => none
  | _ :: qs => some (trimmedPieces qs.reverse)

/-- The parts above the last component are fewer. -/
theorem parentPieces_length {ps qs : List (List Char)} (h : parentPieces ps = some qs) :
    qs.length < ps.length := by
  unfold parentPieces at h
  have hp := (List.dropWhile_sublist isFiller (l := ps.reverse)).length_le
  split at h
  · cases h
  · next r hr =>
    cases h
    rw [hr] at hp
    have hq := (List.dropWhile_sublist isFiller (l := r.reverse.reverse)).length_le
    simp only [trimmedPieces, List.length_reverse, List.length_cons, List.reverse_reverse] at *
    omega

namespace Path

/-- The text before the parts that are looked at: the slash of an absolute path, and
the `.` that starts another. -/
def lead (p : Path) : List (List Char) × List (List Char) :=
  match p.pieces with
  | [] => ([], [])
  | q :: qs =>
    if p.isAbsolute then ([[]], qs)
    else if q = ['.'] then ([q], qs)
    else ([], q :: qs)

/-- The path with the given parts behind its lead. -/
def ofParts (lead parts : List (List Char)) : Path :=
  match lead, parts with
  | [[]], [] => ⟨"/"⟩
  | lead, parts => ⟨String.ofList (Text.joined '/' (lead ++ parts))⟩

/-- The paths above this one up to the top, the nearest first. -/
def above (lead parts : List (List Char)) : List Path :=
  match _h : parentPieces parts with
  | some qs => ofParts lead qs :: above lead qs
  | none => if lead = [['.']] then [⟨""⟩] else []
termination_by parts.length
decreasing_by exact parentPieces_length _h

/-- The path and the paths above it, the nearest first. -/
def ancestors (p : Path) : List Path := p :: above p.lead.1 p.lead.2

/-- The path above this one, if it has a component. -/
def parent? (p : Path) : Option Path := (above p.lead.1 p.lead.2).head?

end Path

/-- The ending of a file name: what stands behind its last point, if something stands
before that. -/
def nameEnding? (name : String) : Option String :=
  match (name.toList.reverse.span (· != '.')) with
  | (_, []) => none
  | (_, [_]) => none
  | (ending, _) => some (String.ofList ending.reverse)

/-- The name of a file or directory, if the path ends in one. -/
def Path.fileName? (p : Path) : Option String :=
  match p.components.getLast? with
  | some (.name s) => some s
  | _ => none

end Disk
end ModelStubs
