/-
# Texts with one entry on a line

A value that is written over several lines is read back. The tree of a value has the
written form of each scalar at its leaves, and the two ways to write the value are two
texts of that tree: they differ in the spaces between the tokens and in nothing else
(`Json.Value.Fits.writes_pretty`). A shape reads all texts of the tree alike, namely as it
decodes the value (`Json.Shape.ofText_iff_decode`).

Key definitions: `Json.Value.tree`.
Key theorems: `Json.Value.Fits.writes_pretty`, `Json.Shape.ofText_iff_decode`,
`Json.Shape.ofText_pretty`.
-/
import ModelStubs.Proofs.Json.PlainTrees
import ModelStubs.Proofs.Json.TreeDecoding

namespace ModelStubs
namespace Json

/-! ### The tree of a value -/

mutual
/-- The tree of what a value is written as. -/
def Value.tree : Value → Tree
  | .scalar v => .scalar v.written
  | .list vs => .list (itemTrees vs)
  | .object ms => .object (memberTrees ms)

/-- The trees of the entries of a list. -/
def itemTrees : List Value → List Tree
  | [] => []
  | v :: vs => v.tree :: itemTrees vs

/-- The trees of the entries of an object, each behind its key. -/
def memberTrees : List (String × Value) → List (List Char × Tree)
  | [] => []
  | (k, v) :: ms => (quote k, v.tree) :: memberTrees ms
end

theorem itemTrees_eq_map : ∀ vs : List Value, itemTrees vs = vs.map Value.tree
  | [] => rfl
  | v :: vs => by rw [itemTrees, itemTrees_eq_map vs, List.map_cons]

theorem memberTrees_eq_map : ∀ ms : List (String × Value),
    memberTrees ms = ms.map fun m => (quote m.1, m.2.tree)
  | [] => rfl
  | (k, v) :: ms => by rw [memberTrees, memberTrees_eq_map ms, List.map_cons]

mutual
/-- Without spaces the tree of a value has the text of the value. -/
theorem Value.compact_tree : ∀ v : Value, v.tree.compact = v.compact
  | .scalar v => by simp only [Value.tree, Tree.compact, Value.compact]
  | .list vs => by
    simp only [Value.tree, Tree.compact, Value.compact, compactItems_trees true vs,
      joined_eq_strung, List.cons_append]
  | .object ms => by
    simp only [Value.tree, Tree.compact, Value.compact, compactEntries_trees true ms,
      joined_eq_strung, List.cons_append]

theorem compactItems_trees : ∀ (first : Bool) (vs : List Value),
    compactItems first (itemTrees vs) = strung first (compactAll vs) ++ [']']
  | first, [] => rfl
  | first, v :: vs => by
    simp only [itemTrees, compactItems, compactAll, strung, v.compact_tree,
      compactItems_trees false vs, List.append_assoc]

theorem compactEntries_trees : ∀ (first : Bool) (ms : List (String × Value)),
    compactEntries first (memberTrees ms) = strung first (compactMembers ms) ++ ['\x7d']
  | first, [] => rfl
  | first, (k, v) :: ms => by
    simp only [memberTrees, compactEntries, compactMembers, strung, v.compact_tree,
      compactEntries_trees false ms, List.append_assoc, List.cons_append]
end

/-- A scalar that is read back is a token. -/
theorem isToken_written {v : Scalar} (hv : v.Exact) : IsToken v.written := by
  have hfits : (Value.scalar v).Fits 0 := .scalar hv
  have hstart := startsEntry_compact hfits
  rw [Value.compact] at hstart
  have hends : EndsNumber [] := nofun
  have hread := head_written hv hends
  rw [List.append_nil] at hread
  exact ⟨hstart, passHead_of_scalar hread⟩

/-- The tree of a value that is read back is proper. -/
theorem Value.Fits.proper {room : Nat} {v : Value} (h : v.Fits room) : v.tree.Proper := by
  induction h with
  | scalar hv =>
    rw [Value.tree]
    exact .scalar (isToken_written hv)
  | @list _ vs _ ih =>
    rw [Value.tree, itemTrees_eq_map]
    exact .list (List.forall_mem_map.mpr ih)
  | @object _ ms _ ih =>
    rw [Value.tree, memberTrees_eq_map]
    exact .object (List.forall_mem_map.mpr fun m _ => isKey_quote m.1)
      (List.forall_mem_map.mpr ih)

/-! ### Entries on lines of their own -/

theorem blank_newLine (depth : Nat) : Blank (newLine depth) := by
  intro c hc
  rcases List.mem_cons.mp hc with rfl | hc
  · rfl
  · rw [List.eq_of_mem_replicate hc]
    rfl

theorem prettyAll_eq_map (depth : Nat) : ∀ vs : List Value,
    prettyAll depth vs = vs.map (Value.pretty depth)
  | [] => rfl
  | v :: vs => by rw [prettyAll, prettyAll_eq_map depth vs, List.map_cons]

theorem prettyMembers_eq_map (depth : Nat) : ∀ ms : List (String × Value),
    prettyMembers depth ms = ms.map fun m => quote m.1 ++ ':' :: ' ' :: m.2.pretty depth
  | [] => rfl
  | (k, v) :: ms => by
    simp only [prettyMembers, prettyMembers_eq_map depth ms, List.map_cons, List.append_assoc,
      List.cons_append, List.nil_append]

/-- A bracket holds its entries, each behind a new line, and spaces before it closes. -/
theorem exists_blank_block (opening closing : Char) (depth : Nat) (entries : List (List Char)) :
    ∃ a, Blank a ∧ block opening closing depth entries =
      opening :: (strung true (entries.map (newLine (depth + 1) ++ ·)) ++ (a ++ [closing])) := by
  cases entries with
  | nil => exact ⟨[], blank_nil, rfl⟩
  | cons p ps =>
    refine ⟨newLine depth, blank_newLine depth, ?_⟩
    simp only [block, List.isEmpty_cons, Bool.false_eq_true, if_false, joined_eq_strung,
      List.cons_append, List.append_assoc]

/-- Texts of the trees, each behind a new line, are the entries of a list. -/
theorem writesItems_lines {depth : Nat} {a : List Char} (ha : Blank a) :
    ∀ (first : Bool) (vs : List Value), (∀ v ∈ vs, v.tree.Writes (v.pretty depth)) →
      WritesItems first (vs.map Value.tree)
        (strung first ((vs.map (Value.pretty depth)).map (newLine depth ++ ·)) ++ (a ++ [']']))
  | first, [], _ => .nil ha
  | first, v :: vs, h => by
    obtain ⟨hv, hvs⟩ := List.forall_mem_cons.mp h
    simp only [List.map_cons, strung, List.append_assoc]
    exact .cons blank_nil (blank_newLine depth) hv (writesItems_lines ha false vs hvs)

/-- Keys with the texts of the trees, each behind a new line, are the entries of an
object. -/
theorem writesMembers_lines {depth : Nat} {a : List Char} (ha : Blank a) :
    ∀ (first : Bool) (ms : List (String × Value)),
      (∀ m ∈ ms, m.2.tree.Writes (m.2.pretty depth)) →
      WritesMembers first (ms.map fun m => (quote m.1, m.2.tree))
        (strung first ((ms.map fun m => quote m.1 ++ ':' :: ' ' :: m.2.pretty depth).map
          (newLine depth ++ ·)) ++ (a ++ ['\x7d']))
  | first, [], _ => .nil ha
  | first, (k, v) :: ms, h => by
    obtain ⟨hv, hms⟩ := List.forall_mem_cons.mp h
    have hspace : Blank [' '] := List.forall_mem_singleton.mpr rfl
    simp only [List.map_cons, strung, List.append_assoc, List.cons_append]
    exact .cons blank_nil (blank_newLine depth) (isKey_quote k) blank_nil hspace hv
      (writesMembers_lines ha false ms hms)

/-- **Indented texts.** At every depth the indented text of a value is a text of its
tree. -/
theorem Value.Fits.writes_pretty {room : Nat} {v : Value} (h : v.Fits room) :
    ∀ depth : Nat, v.tree.Writes (v.pretty depth) := by
  induction h with
  | scalar hv =>
    intro depth
    rw [Value.tree, Value.pretty]
    exact .scalar (isToken_written hv)
  | @list _ vs _ ih =>
    intro depth
    obtain ⟨a, ha, hblock⟩ := exists_blank_block '[' ']' depth (prettyAll (depth + 1) vs)
    rw [Value.tree, Value.pretty, hblock, itemTrees_eq_map, prettyAll_eq_map]
    exact .list (writesItems_lines ha true vs fun v hv => ih v hv (depth + 1))
  | @object _ ms _ ih =>
    intro depth
    obtain ⟨a, ha, hblock⟩ :=
      exists_blank_block '\x7b' '\x7d' depth (prettyMembers (depth + 1) ms)
    rw [Value.tree, Value.pretty, hblock, memberTrees_eq_map, prettyMembers_eq_map]
    exact .object (writesMembers_lines ha true ms fun m hm => ih m hm (depth + 1))

/-! ### Reading -/

/-- The tree of a value that is read back means the value. -/
theorem Value.Fits.means {room : Nat} {v : Value} (h : v.Fits room) : v.tree.Means room v := by
  induction h with
  | @scalar room v hv =>
    have hends : EndsNumber [] := nofun
    have hread := head_written hv hends
    rw [List.append_nil] at hread
    rw [Value.tree, Tree.Means]
    exact hread
  | @list room vs _ ih =>
    rw [Value.tree, itemTrees_eq_map, Tree.Means, List.forall₂_map_left_iff]
    exact List.forall₂_same.mpr ih
  | @object room ms _ ih =>
    rw [Value.tree, memberTrees_eq_map, Tree.Means, List.forall₂_map_left_iff]
    exact List.forall₂_same.mpr fun m hm => ⟨keyName_quote m.1, ih m hm⟩

variable {α : Type} {s : Shape α} {v : Value} {a : α}

/-- Every text of the tree of a value is read as the value is decoded. -/
theorem Shape.ofText_iff_decode (hlawful : s.Lawful) (hfits : v.Fits nesting) {source : String}
    (ht : v.tree.Text source) : s.ofText source = .ok a ↔ s.decode v = .ok a :=
  (Shape.ofText_iff hlawful ht).trans (Shape.decodes nesting hlawful hfits.means).symm

/-- The text on one line is a text of the tree. -/
theorem Value.Fits.text_compact {room : Nat} (h : v.Fits room) :
    v.tree.Text (String.ofList v.compact) := by
  rw [← Value.compact_tree]
  exact h.proper.text

/-- The text on several lines is a text of the tree. -/
theorem Value.Fits.text_pretty {room : Nat} (h : v.Fits room) :
    v.tree.Text (String.ofList (v.pretty 0)) := by
  refine ⟨[], v.pretty 0, [], blank_nil, h.writes_pretty 0, blank_nil, ?_⟩
  rw [String.toList_ofList, List.nil_append, List.append_nil]

/-- **What is written over several lines is read back.** The indented text of a value of a
lawful shape is read as that value, if the shape is not higher than brackets may be
nested. -/
theorem Shape.ofText_pretty (hlawful : s.Lawful) (hheight : s.height ≤ nesting) (a : α) :
    s.ofText (s.pretty a) = .ok a := by
  have hfits : (s.encode a).Fits nesting := (s.fits_encode a).mono hheight
  exact (Shape.ofText_iff_decode hlawful hfits hfits.text_pretty).mpr
    (Shape.decode_encode hlawful a)

end Json
end ModelStubs
