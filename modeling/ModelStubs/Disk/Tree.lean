/-
# File trees

A file tree says what stands under each list of names: a file, a directory or a
link. The top, under the empty list, is always a directory. A path is followed name
by name; every name before the last has to lead to a directory, links are replaced
by their targets, and at most forty links are followed.

Key definitions: `Disk.Node`, `Disk.FileTree`, `Disk.FileTree.follow`,
`Disk.FileTree.status`, `Disk.FileTree.readText`, `Disk.FileTree.makeDirectory`,
`Disk.FileTree.writeText`.
Key theorems: `Disk.FileTree.get?_put`.
-/
import ModelStubs.Disk.Path
import ModelStubs.Disk.Error

namespace ModelStubs
namespace Disk

/-- What a file holds: a text, or bytes that spell none. -/
inductive Content
  | text (s : String)
  | bytes (b : List UInt8)
deriving DecidableEq, Repr

/-- What a path leads to. -/
inductive Item
  | file (content : Content)
  | directory
deriving DecidableEq, Repr

/-- What stands at a place in a file tree. -/
inductive Node
  | item (i : Item)
  | link (target : String)
deriving DecidableEq, Repr

/-- A place in a file tree: the names on the way from the top. -/
abbrev Names : Type := List String

/-- What stands at each place below the top. -/
structure FileTree where
  entries : List (Names × Node)
deriving Repr, Inhabited

namespace FileTree

/-- The tree of a bare top. -/
def empty : FileTree := ⟨[]⟩

/-- What stands at a place. -/
def get? (t : FileTree) : Names → Option Node
  | [] => some (.item .directory)
  | ns => t.entries.lookup ns

/-- The entries with one node put in place of what stood there, or behind them. -/
def putEntry (ns : Names) (n : Node) : List (Names × Node) → List (Names × Node)
  | [] => [(ns, n)]
  | (ms, m) :: es => if ms = ns then (ms, n) :: es else (ms, m) :: putEntry ns n es

/-- The tree with another node at a place. -/
def put (t : FileTree) (ns : Names) (n : Node) : FileTree := ⟨putEntry ns n t.entries⟩

theorem lookup_putEntry (ns ms : Names) (n : Node) : ∀ es : List (Names × Node),
    (putEntry ns n es).lookup ms = if ms = ns then some n else es.lookup ms
  | [] => by
    by_cases h : ms = ns
    · simp [putEntry, h]
    · have : (ms == ns) = false := by simpa using h
      simp [putEntry, List.lookup_cons, this, h]
  | (ks, k) :: es => by
    unfold putEntry
    split
    · next hk =>
      subst hk
      by_cases h : ms = ks
      · simp [h]
      · have : (ms == ks) = false := by simpa using h
        simp [List.lookup_cons, h, this]
    · next hk =>
      by_cases h : ms = ks
      · have hn : ¬ ms = ns := fun e => hk (h ▸ e)
        subst h
        simp [hn]
      · have : (ms == ks) = false := by simpa using h
        simp [List.lookup_cons, this, lookup_putEntry ns ms n es]

/-- What stands at a place after something was put. -/
theorem get?_put (t : FileTree) {ns ms : Names} (n : Node) (h : ms ≠ []) :
    (t.put ns n).get? ms = if ms = ns then some n else t.get? ms := by
  cases ms with
  | nil => exact absurd rfl h
  | cons m ms => exact lookup_putEntry ns (m :: ms) n t.entries

/-- How many links are followed on the way to one place. -/
def linkLimit : Nat := 40

/-- How many bytes a name may have. -/
def nameLimit : Nat := 255

/-- How many bytes a path may have, with its end mark. -/
def pathLimit : Nat := 4096

/-- The names of a path, and whether it has to lead to a directory because it ends
in a slash. -/
structure Route where
  names : List String
  slash : Bool
deriving DecidableEq, Repr

/-- The route that a text spells. -/
def Route.of (text : String) : Route where
  names := ((Text.pieces '/' text.toList).filter fun p => !p.isEmpty).map String.ofList
  slash := text.toList.getLast? == some '/'

/-- The names with a last `.` if the path ends in a slash. -/
def Route.steps (r : Route) : List String := if r.slash then r.names ++ ["."] else r.names

/-- The route of a path, if the system takes the path at all. -/
def routeOf (p : Path) : Except Error Route :=
  if p.text.toList.contains '\x00' then .error .nulInName
  else if p.text.isEmpty then .error .notFound
  else if pathLimit ≤ p.text.utf8ByteSize then .error .nameTooLong
  else .ok (Route.of p.text)

/-- Where a target starts that was found in the given directory. -/
def startOf (base : Names) (target : String) : Names :=
  if target.toList.head? = some '/' then [] else base

/-- Follows names from a place. The answer is the place they lead to and the number of
links that may still be followed. -/
def follow (t : FileTree) (links : Nat) (base : Names) (names : List String) :
    Except Error (Names × Nat) :=
  match names with
  | [] => .ok (base, links)
  | n :: ns =>
    if t.get? base ≠ some (.item .directory) then .error .notDirectory
    else if n = "." then t.follow links base ns
    else if n = ".." then t.follow links base.dropLast ns
    else if nameLimit < n.utf8ByteSize then .error .nameTooLong
    else
      match t.get? (base ++ [n]) with
      | none => .error .notFound
      | some (.link target) =>
        match links with
        | 0 => .error .tooManyLinks
        | links + 1 => t.follow links (startOf base target) ((Route.of target).steps ++ ns)
      | some _ => t.follow links (base ++ [n]) ns
termination_by (links, names.length)

/-- The place that a path leads to, with links followed. -/
def resolve (t : FileTree) (p : Path) : Except Error Names :=
  match routeOf p with
  | .error e => .error e
  | .ok r =>
    match t.follow linkLimit [] r.steps with
    | .error e => .error e
    | .ok (place, _) => .ok place

/-- What a path leads to, with links followed. -/
def status (t : FileTree) (p : Path) : Except Error Item :=
  match t.resolve p with
  | .error e => .error e
  | .ok place =>
    match t.get? place with
    | some (.item i) => .ok i
    | _ => .error .notFound

/-- A path leads to something. -/
def holds (t : FileTree) (p : Path) : Bool := (t.status p).isOk

/-- A path leads to a directory. -/
def isDirectory (t : FileTree) (p : Path) : Bool :=
  match t.status p with
  | .ok .directory => true
  | _ => false

/-- The text of the file that a path leads to. -/
def readText (t : FileTree) (p : Path) : Except Error String :=
  match t.status p with
  | .error e => .error e
  | .ok (.file (.text s)) => .ok s
  | .ok (.file (.bytes _)) => .error .notText
  | .ok .directory => .error .isDirectory

/-- The directory that all names but the last lead to, the last name, and the links
that may still be followed. -/
def followParent (t : FileTree) (links : Nat) (base : Names) (names : List String)
    (last : String) : Except Error (Names × String × Nat) :=
  match t.follow links base names with
  | .error e => .error e
  | .ok (place, links) =>
    if t.get? place ≠ some (.item .directory) then .error .notDirectory
    else .ok (place, last, links)

/-- The place of a new directory. -/
def newDirectory (t : FileTree) (r : Route) : Except Error Names :=
  match r.names.getLast? with
  | none => .error .alreadyExists
  | some last =>
    match t.followParent linkLimit [] r.names.dropLast last with
    | .error e => .error e
    | .ok (place, last, _) =>
      if last = "." ∨ last = ".." then .error .alreadyExists
      else if nameLimit < last.utf8ByteSize then .error .nameTooLong
      else
        match t.get? (place ++ [last]) with
        | none => .ok (place ++ [last])
        | some _ => .error .alreadyExists

/-- Makes one directory in a directory that is there. -/
def makeDirectory (t : FileTree) (p : Path) : Except Error Unit × FileTree :=
  match routeOf p with
  | .error e => (.error e, t)
  | .ok r =>
    match t.newDirectory r with
    | .error e => (.error e, t)
    | .ok place => (.ok (), t.put place (.item .directory))

/-- The place of the file that a route from a directory leads to. A file that is not
there may be made; a link at the end is followed, `hops` times at most. -/
def fileTarget (t : FileTree) (links : Nat) (base : Names) (r : Route) :
    (hops : Nat) → Except Error Names
  | 0 => .error .tooManyLinks
  | hops + 1 =>
    match r.names.getLast? with
    | none => .error .isDirectory
    | some last =>
      match t.followParent links base r.names.dropLast last with
      | .error e => .error e
      | .ok (place, last, links) =>
        if last = "." ∨ last = ".." ∨ r.slash then .error .isDirectory
        else if nameLimit < last.utf8ByteSize then .error .nameTooLong
        else
          match t.get? (place ++ [last]) with
          | none => .ok (place ++ [last])
          | some (.item (.file _)) => .ok (place ++ [last])
          | some (.item .directory) => .error .isDirectory
          | some (.link target) =>
            match links with
            | 0 => .error .tooManyLinks
            | links + 1 => t.fileTarget links (startOf place target) (Route.of target) hops

/-- Writes a text to a file, which is made if it is not there. -/
def writeText (t : FileTree) (p : Path) (s : String) : Except Error Unit × FileTree :=
  match routeOf p with
  | .error e => (.error e, t)
  | .ok r =>
    match t.fileTarget linkLimit [] r (linkLimit + 1) with
    | .error e => (.error e, t)
    | .ok place => (.ok (), t.put place (.item (.file (.text s))))

end FileTree
end Disk
end ModelStubs
