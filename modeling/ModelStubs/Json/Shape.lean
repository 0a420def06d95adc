/-
# Shapes

A shape says how values of a type are spelled in JSON. It has three readings: read
a text (`Shape.read`), decode a value that was read before (`Shape.decode`), and
encode (`Shape.encode`).

* A record is spelled as an object of its fields, in any order, or as a list of its
  fields in their order. Entries of the object that are no field are passed over,
  a field that stands twice is refused, and a field that is absent has its default.
* A tagged choice is spelled as an object with the label under the tag and with the
  fields of the record that the label names, or as a list that starts with the
  label. Its body is read as a value first and decoded after the bracket is closed,
  since the tag may come last.

Key definitions: `Json.ScalarShape`, `Json.Shape`, `Json.Shape.read`,
`Json.Shape.decode`, `Json.Shape.encode`, `Json.Shape.ofText`.
-/
import ModelStubs.Json.Row

namespace ModelStubs
namespace Json

/-- The scalars that a type may be spelled by. -/
inductive ScalarShape : Type → Type
  | text : ScalarShape String
  | label : ScalarShape String
  | count : ScalarShape UInt32
  | flag : ScalarShape Bool

namespace ScalarShape

/-- The kind of value that a scalar shape asks for. -/
def wanted {α : Type} : ScalarShape α → Wanted
  | text => .text
  | label => .label
  | count => .count
  | flag => .flag

/-- A string, if the scalar is one. -/
def asText (wanted : Wanted) : Scalar → Except Cause String
  | .text s => .ok s
  | v => .error (.wrongKind v.found wanted)

/-- A number of 32 bits, if the scalar is one. -/
def asCount : Scalar → Except Cause UInt32
  | .number (.natural n) =>
    if n < UInt32.size then .ok n.toUInt32 else .error (.outOfRange (.natural n) .count)
  | .number (.negative n) => .error (.outOfRange (.negative n) .count)
  | v => .error (.wrongKind v.found .count)

/-- A truth value, if the scalar is one. -/
def asFlag : Scalar → Except Cause Bool
  | .flag b => .ok b
  | v => .error (.wrongKind v.found .flag)

/-- The value that a scalar spells. -/
def ofScalar {α : Type} : ScalarShape α → Scalar → Except Cause α
  | text => asText .text
  | label => asText .label
  | count => asCount
  | flag => asFlag

/-- The scalar that spells a value. -/
def toScalar {α : Type} : ScalarShape α → α → Scalar
  | text, s => .text s
  | label, s => .text s
  | count, n => .number (.natural n.toNat)
  | flag, b => .flag b

/-- The value that a value spells, if it is a scalar of the right kind. -/
def decode {α : Type} (k : ScalarShape α) : Value → Except Cause α
  | .scalar v => k.ofScalar v
  | .list _ => .error (.wrongKind .list k.wanted)
  | .object _ => .error (.wrongKind .object k.wanted)

end ScalarShape

mutual
/-- How values of a type are spelled. -/
inductive Shape : Type → Type 1
  | scalar {α : Type} (k : ScalarShape α) : Shape α
  | optional {α : Type} (s : Shape α) : Shape (Option α)
  | list {α : Type} (s : Shape α) : Shape (List α)
  | record {α : Type} (r : RecordShape α) : Shape α
  | tagged {α : Type} {ts : List Type} (name tag : String) (variants : Variants ts)
      (view : View α (Choice ts)) : Shape α

/-- A record by its name and fields. -/
inductive RecordShape : Type → Type 1
  | mk {α : Type} {ts : List Type} (name : String) (fields : Fields ts)
      (view : View α (Tuple ts)) : RecordShape α

/-- Fields in their order, with the shapes of their values. -/
inductive Fields : List Type → Type 1
  | nil : Fields []
  | cons {α : Type} {ts : List Type} (field : Field α) (s : Shape α) (rest : Fields ts) :
      Fields (α :: ts)

/-- The records of a tagged choice under their labels. -/
inductive Variants : List Type → Type 1
  | nil : Variants []
  | cons {α : Type} {ts : List Type} (label : String) (r : RecordShape α) (rest : Variants ts) :
      Variants (α :: ts)
end

/-! ### Decoding -/

/-- What decodes a value. -/
abbrev Decoder (α : Type) : Type := Value → Except Cause α

/-- Decodes each entry. -/
def decodeAll {α : Type} (d : Decoder α) : List Value → Except Cause (List α)
  | [] => .ok []
  | v :: vs =>
    match d v with
    | .error c => .error c
    | .ok a =>
      match decodeAll d vs with
      | .error c => .error c
      | .ok as => .ok (a :: as)

/-- Decodes the entries of a list as the fields in their order, from field number
`index` on; the entries that are left come second. -/
def decodeFields (name : String) (total : Nat) : {ts : List Type} → Row (Entry Decoder) ts →
    (index : Nat) → List Value → Except Cause (Tuple ts × List Value)
  | [], _, _, vs => .ok ((), vs)
  | _ :: _, (e, es), index, [] =>
    match e.field.absent with
    | none => .error (.tooFew index name total)
    | some a =>
      match decodeFields name total es (index + 1) [] with
      | .error c => .error c
      | .ok (as, vs) => .ok ((a, as), vs)
  | _ :: _, (e, es), index, v :: vs =>
    match e.body v with
    | .error c => .error c
    | .ok a =>
      match decodeFields name total es (index + 1) vs with
      | .error c => .error c
      | .ok (as, vs) => .ok ((a, as), vs)

/-- Decodes the value of a key into the row, or answers nothing if the key is no
field. -/
def decodeField : {ts : List Type} → Row (Entry Decoder) ts → Row Option ts → String → Value →
    Except Cause (Option (Row Option ts))
  | [], _, _, _, _ => .ok none
  | _ :: _, (e, es), (slot, slots), k, v =>
    if k = e.field.name then
      if slot.isSome then .error (.duplicate k)
      else
        match e.body v with
        | .error c => .error c
        | .ok a => .ok (some (some a, slots))
    else
      match decodeField es slots k v with
      | .error c => .error c
      | .ok none => .ok none
      | .ok (some slots) => .ok (some (slot, slots))

/-- Decodes the entries of an object into the row. -/
def decodeMembers {ts : List Type} (row : Row (Entry Decoder) ts) (slots : Row Option ts) :
    List (String × Value) → Except Cause (Row Option ts)
  | [] => .ok slots
  | (k, v) :: ms =>
    match decodeField row slots k v with
    | .error c => .error c
    | .ok none => decodeMembers row slots ms
    | .ok (some slots) => decodeMembers row slots ms

/-- Decodes a record. -/
def decodeRecord (name : String) {ts : List Type} (row : Row (Entry Decoder) ts) :
    Decoder (Tuple ts)
  | .scalar v => .error (.wrongKind v.found (.record name))
  | .list vs =>
    match decodeFields name ts.length row 0 vs with
    | .error c => .error c
    | .ok (as, []) => .ok as
    | .ok (_, _ :: _) => .error (.tooMany vs.length ts.length)
  | .object ms =>
    match decodeMembers row Row.none ms with
    | .error c => .error c
    | .ok slots => complete row slots

/-- The decoder that a label names. -/
def decodeLabel {α : Type} (known : List String) (choose : String → Option (Decoder α))
    (v : Value) : Except Cause (Decoder α) :=
  match ScalarShape.label.decode v with
  | .error c => .error c
  | .ok l =>
    match choose l with
    | none => .error (.unknownLabel l known)
    | some d => .ok d

/-- Finds the tag among the entries of an object: what its label names, if it was
found, and the other entries. -/
def decodeTag {α : Type} (tag : String) (known : List String)
    (choose : String → Option (Decoder α)) (found : Option (Decoder α)) :
    List (String × Value) → Except Cause (Option (Decoder α) × List (String × Value))
  | [] => .ok (found, [])
  | (k, v) :: ms =>
    if k = tag then
      if found.isSome then .error (.duplicate tag)
      else
        match decodeLabel known choose v with
        | .error c => .error c
        | .ok d => decodeTag tag known choose (some d) ms
    else
      match decodeTag tag known choose found ms with
      | .error c => .error c
      | .ok (found, ms) => .ok (found, (k, v) :: ms)

/-- Decodes a tagged choice. -/
def decodeTagged {α : Type} (name tag : String) (known : List String)
    (choose : String → Option (Decoder α)) : Decoder α
  | .scalar v => .error (.wrongKind v.found (.tagged name))
  | .list [] => .error (.missing tag)
  | .list (v :: vs) =>
    match decodeLabel known choose v with
    | .error c => .error c
    | .ok d => d (.list vs)
  | .object ms =>
    match decodeTag tag known choose none ms with
    | .error c => .error c
    | .ok (none, _) => .error (.missing tag)
    | .ok (some d, ms) => d (.object ms)

/-- Applies a function to what is decoded. -/
def Decoder.map {α β : Type} (f : α → β) (d : Decoder α) : Decoder β := fun v =>
  match d v with
  | .error c => .error c
  | .ok a => .ok (f a)

/-- Decodes nothing from null and a value from any other. -/
def Decoder.optional {α : Type} (d : Decoder α) : Decoder (Option α)
  | .scalar .null => .ok none
  | v => d.map some v

/-- Decodes a list. -/
def Decoder.list {α : Type} (d : Decoder α) : Decoder (List α)
  | .scalar v => .error (.wrongKind v.found .list)
  | .list vs => decodeAll d vs
  | .object _ => .error (.wrongKind .object .list)

/-- The labels of the records. -/
def Variants.labels : {ts : List Type} → Variants ts → List String
  | _, .nil => []
  | _, .cons label _ rest => label :: rest.labels

mutual
/-- Decodes a value of the shape. -/
def Shape.decode : {α : Type} → Shape α → Decoder α
  | _, .scalar k => k.decode
  | _, .optional s => s.decode.optional
  | _, .list s => s.decode.list
  | _, .record r => r.decode
  | _, .tagged name tag variants view =>
    (decodeTagged name tag variants.labels variants.choose).map view.whole

/-- Decodes a record of the shape. -/
def RecordShape.decode : {α : Type} → RecordShape α → Decoder α
  | _, .mk name fields view => (decodeRecord name fields.decode).map view.whole

/-- The decoders of the fields. -/
def Fields.decode : {ts : List Type} → Fields ts → Row (Entry Decoder) ts
  | _, .nil => ()
  | _, .cons field s rest => (⟨field, s.decode⟩, rest.decode)

/-- The decoder of the record that has the label. -/
def Variants.choose : {ts : List Type} → Variants ts → String → Option (Decoder (Choice ts))
  | _, .nil, _ => none
  | _, .cons label r rest, l =>
    if l = label then some (r.decode.map Sum.inl)
    else
      match rest.choose l with
      | none => none
      | some d => some (d.map Sum.inr)
end

/-! ### Reading -/

/-- A reader of scalars. -/
def Reader.scalar {α : Type} (k : ScalarShape α) : Reader α where
  run s :=
    match head s with
    | .error e => .error e
    | .ok (.scalar v t) =>
      match k.ofScalar v with
      | .error c => .error (.at c t)
      | .ok a => .ok (a, t)
    | .ok (.list t) => .error (.at (.wrongKind .list k.wanted) ('[' :: t))
    | .ok (.object t) => .error (.at (.wrongKind .object k.wanted) ('\x7b' :: t))
  shortens h := by
    split at h
    · cases h
    · next hh =>
      split at h
      · cases h
      · cases h; exact head_scalar_shortens hh
    · cases h
    · cases h

/-- A reader that applies a function to what is read. -/
def Reader.map {α β : Type} (f : α → β) (r : Reader α) : Reader β where
  run s := mapped f (r.run s)
  shortens h := by
    obtain ⟨_, h, _⟩ := of_mapped h
    exact r.shortens h

/-- A reader of null or a value. -/
def Reader.optional {α : Type} (r : Reader α) : Reader (Option α) where
  run s :=
    match skipSpace s with
    | [] => mapped some (r.run [])
    | c :: t =>
      if c = 'n' then
        match passWord ['u', 'l', 'l'] t with
        | .error e => .error e
        | .ok u => .ok (none, u)
      else mapped some (r.run (c :: t))
  shortens {s t a} h := by
    have hs := skipSpace_length s
    split at h
    · next he =>
      rw [he] at hs
      obtain ⟨_, h, _⟩ := of_mapped h
      exact Nat.lt_of_lt_of_le (r.shortens h) hs
    · next he =>
      rw [he] at hs
      split at h
      · split at h
        · cases h
        · next hw =>
          cases h
          have := passWord_length hw
          simp only [List.length_cons] at hs
          omega
      · obtain ⟨_, h, _⟩ := of_mapped h
        exact Nat.lt_of_lt_of_le (r.shortens h) hs

/-- A reader of lists, if one more bracket may be opened. -/
def Reader.list {α : Type} (room : Nat) (item : Reader α) : Reader (List α) where
  run s :=
    match head s with
    | .error e => .error e
    | .ok (.scalar v t) => .error (.at (.wrongKind v.found .list) t)
    | .ok (.list t) => if room = 0 then .error (.on .tooDeep ('[' :: t)) else listRest item t
    | .ok (.object t) => .error (.at (.wrongKind .object .list) ('\x7b' :: t))
  shortens h := by
    split at h
    · cases h
    · cases h
    · next hh =>
      split at h
      · cases h
      · exact Nat.lt_trans (listRest_shortens h) (head_list_shortens hh)
    · cases h

/-- Reads the entries of a list as the fields in their order, from field number
`index` on. -/
def readFields (name : String) (total : Nat) : {ts : List Type} → Row (Entry Reader) ts →
    (index : Nat) → List Char → Except Stop (Tuple ts × List Char)
  | [], _, _, s => .ok ((), s)
  | _ :: _, (e, es), index, s =>
    match nextItem (index == 0) s with
    | .error stop => .error stop
    | .ok (.ended t) =>
      match e.field.absent with
      | none => .error (.floating (.tooFew index name total) t)
      | some a =>
        match readFields name total es (index + 1) t with
        | .error stop => .error stop
        | .ok (as, u) => .ok ((a, as), u)
    | .ok (.more t) =>
      match e.body.run t with
      | .error stop => .error stop
      | .ok (a, u) =>
        match readFields name total es (index + 1) u with
        | .error stop => .error stop
        | .ok (as, v) => .ok ((a, as), v)

theorem readFields_length {name : String} {total : Nat} : {ts : List Type} →
    {row : Row (Entry Reader) ts} → {index : Nat} → {s t : List Char} → {as : Tuple ts} →
    readFields name total row index s = .ok (as, t) → t.length ≤ s.length
  | [], _, _, _, _, _, h => by cases h; exact Nat.le_refl _
  | _ :: _, (e, es), index, s, t, as, h => by
    simp only [readFields] at h
    split at h
    · cases h
    · next hn =>
      have h1 := nextItem_length hn
      split at h
      · cases h
      · split at h
        · cases h
        · next hr =>
          cases h
          exact Nat.le_trans (readFields_length hr) h1
    · next hn =>
      have h1 := nextItem_length hn
      split at h
      · cases h
      · next hb =>
        have h2 := e.body.shortens hb
        split at h
        · cases h
        · next hr =>
          cases h
          have h3 := readFields_length hr
          simp only [Next.text] at h1
          omega

/-- Reads the value of a key into the row, or answers nothing if the key is no
field. -/
def readField : {ts : List Type} → Row (Entry Reader) ts → Row Option ts → String → List Char →
    Except Stop (Option (Row Option ts × List Char))
  | [], _, _, _, _ => .ok none
  | _ :: _, (e, es), (slot, slots), k, s =>
    if k = e.field.name then
      if slot.isSome then .error (.floating (.duplicate k) s)
      else
        match e.body.afterColon s with
        | .error stop => .error stop
        | .ok (a, t) => .ok (some ((some a, slots), t))
    else
      match readField es slots k s with
      | .error stop => .error stop
      | .ok none => .ok none
      | .ok (some (slots, t)) => .ok (some ((slot, slots), t))

theorem readField_length : {ts : List Type} → {row : Row (Entry Reader) ts} →
    {x y : Row Option ts} → {k : String} → {s t : List Char} →
    readField row x k s = .ok (some (y, t)) → t.length < s.length
  | [], _, _, _, _, _, _, h => by cases h
  | _ :: _, (e, es), (slot, slots), y, k, s, t, h => by
    simp only [readField] at h
    split at h
    · split at h
      · cases h
      · split at h
        · cases h
        · next ha => cases h; exact Reader.afterColon_shortens ha
    · split at h
      · cases h
      · cases h
      · next hr => cases h; exact readField_length hr

/-- Passes over the value of a key. -/
def passMember (s : List Char) : Except Stop (List Char) :=
  match colon s with
  | .error e => .error e
  | .ok t => passValue t

/-- The reader of the entries of a record. -/
def MemberReader.record {ts : List Type} (row : Row (Entry Reader) ts) :
    MemberReader (Row Option ts) where
  run slots k s :=
    match readField row slots k s with
    | .error e => .error e
    | .ok (some (slots, t)) => .ok (slots, t)
    | .ok none =>
      match passMember s with
      | .error e => .error e
      | .ok t => .ok (slots, t)
  keeps h := by
    split at h
    · cases h
    · next hr => cases h; exact Nat.le_of_lt (readField_length hr)
    · split at h
      · cases h
      · next hp =>
        cases h
        unfold passMember at hp
        split at hp
        · cases hp
        · next hc =>
          exact Nat.le_of_lt (Nat.lt_trans (passValue_shortens hp) (colon_shortens hc))

/-- Reads the entries of an object as the fields. -/
def readMembers {ts : List Type} (row : Row (Entry Reader) ts) (s : List Char) :
    Except Stop (Tuple ts × List Char) :=
  match members (.record row) true Row.none s with
  | .error e => .error e
  | .ok (slots, t) =>
    match complete row slots with
    | .error c => .error (.floating c t)
    | .ok as => .ok (as, t)

theorem readMembers_length {ts : List Type} {row : Row (Entry Reader) ts} {s t : List Char}
    {as : Tuple ts} (h : readMembers row s = .ok (as, t)) : t.length ≤ s.length := by
  unfold readMembers at h
  split at h
  · cases h
  · next hm =>
    split at h
    · cases h
    · cases h; exact members_length hm

/-- A reader of records, if one more bracket may be opened. -/
def Reader.record (room : Nat) (name : String) {ts : List Type} (row : Row (Entry Reader) ts) :
    Reader (Tuple ts) where
  run s :=
    match head s with
    | .error e => .error e
    | .ok (.scalar v t) => .error (.at (.wrongKind v.found (.record name)) t)
    | .ok (.list t) =>
      if room = 0 then .error (.on .tooDeep ('[' :: t))
      else closed closeList (readFields name ts.length row 0 t)
    | .ok (.object t) =>
      if room = 0 then .error (.on .tooDeep ('\x7b' :: t))
      else closed closeObject (readMembers row t)
  shortens h := by
    split at h
    · cases h
    · cases h
    · next hh =>
      split at h
      · cases h
      · obtain ⟨_, hr, hc⟩ := of_closed h
        have h1 := head_list_shortens hh
        have h2 := readFields_length hr
        have h3 := closeList_shortens hc
        omega
    · next hh =>
      split at h
      · cases h
      · obtain ⟨_, hr, hc⟩ := of_closed h
        have h1 := head_object_shortens hh
        have h2 := readMembers_length hr
        have h3 := closeObject_shortens hc
        omega

/-- A reader of labels, which answers the decoder that the label names. -/
def Reader.label {α : Type} (known : List String) (choose : String → Option (Decoder α)) :
    Reader (Decoder α) where
  run s :=
    match (Reader.scalar .label).run s with
    | .error e => .error e
    | .ok (l, t) =>
      match choose l with
      | none => .error (.at (.unknownLabel l known) t)
      | some d => .ok (d, t)
  shortens h := by
    split at h
    · cases h
    · next hl =>
      split at h
      · cases h
      · cases h; exact (Reader.scalar .label).shortens hl

/-- The entries of a tagged object read so far: what the label names, and the other
entries in reverse. -/
structure Tagged (α : Type) where
  chosen : Option (Decoder α)
  others : List (String × Value)

/-- The reader of the entries of a tagged object. -/
def MemberReader.tagged {α : Type} (tag : String) (label : Reader (Decoder α))
    (inner : Reader Value) : MemberReader (Tagged α) where
  run x k s :=
    if k = tag then
      if x.chosen.isSome then .error (.floating (.duplicate tag) s)
      else
        match label.afterColon s with
        | .error e => .error e
        | .ok (d, t) => .ok (⟨some d, x.others⟩, t)
    else
      match inner.afterColon s with
      | .error e => .error e
      | .ok (v, t) => .ok (⟨x.chosen, (k, v) :: x.others⟩, t)
  keeps h := by
    split at h
    · split at h
      · cases h
      · split at h
        · cases h
        · next ha => cases h; exact Nat.le_of_lt (Reader.afterColon_shortens ha)
    · split at h
      · cases h
      · next ha => cases h; exact Nat.le_of_lt (Reader.afterColon_shortens ha)

/-- The label and the other entries of a list. -/
def readTaggedList {α : Type} (tag : String) (label : Reader (Decoder α))
    (inner : Reader Value) (s : List Char) : Except Stop ((Decoder α × Value) × List Char) :=
  match nextItem true s with
  | .error e => .error e
  | .ok (.ended t) => .error (.floating (.missing tag) t)
  | .ok (.more t) =>
    match label.run t with
    | .error e => .error e
    | .ok (d, u) =>
      match items inner false [] u with
      | .error e => .error e
      | .ok (vs, v) => .ok ((d, .list vs), v)

theorem readTaggedList_length {α : Type} {tag : String} {label : Reader (Decoder α)}
    {inner : Reader Value} {s t : List Char} {x : Decoder α × Value}
    (h : readTaggedList tag label inner s = .ok (x, t)) : t.length ≤ s.length := by
  unfold readTaggedList at h
  split at h
  · cases h
  · cases h
  · next hn =>
    split at h
    · cases h
    · next hl =>
      split at h
      · cases h
      · next hi =>
        cases h
        have h1 := nextItem_length hn
        have h2 := label.shortens hl
        have h3 := items_length hi
        simp only [Next.text] at h1
        omega

/-- The label and the other entries of an object. -/
def readTaggedObject {α : Type} (tag : String) (label : Reader (Decoder α))
    (inner : Reader Value) (s : List Char) : Except Stop ((Decoder α × Value) × List Char) :=
  match members (.tagged tag label inner) true ⟨none, []⟩ s with
  | .error e => .error e
  | .ok (x, t) =>
    match x.chosen with
    | none => .error (.floating (.missing tag) t)
    | some d => .ok ((d, .object x.others.reverse), t)

theorem readTaggedObject_length {α : Type} {tag : String} {label : Reader (Decoder α)}
    {inner : Reader Value} {s t : List Char} {x : Decoder α × Value}
    (h : readTaggedObject tag label inner s = .ok (x, t)) : t.length ≤ s.length := by
  unfold readTaggedObject at h
  split at h
  · cases h
  · next hm =>
    split at h
    · cases h
    · cases h; exact members_length hm

/-- Decodes the body of a tagged choice behind its bracket. -/
def decodeBody {α : Type} :
    Except Stop ((Decoder α × Value) × List Char) → Except Stop (α × List Char)
  | .error e => .error e
  | .ok ((d, v), s) =>
    match d v with
    | .error c => .error (.floating c s)
    | .ok a => .ok (a, s)

theorem of_decodeBody {α : Type} {r : Except Stop ((Decoder α × Value) × List Char)} {a : α}
    {t : List Char} (h : decodeBody r = .ok (a, t)) : ∃ x, r = .ok (x, t) ∧ x.1 x.2 = .ok a := by
  unfold decodeBody at h
  split at h
  · cases h
  · next d v s =>
    split at h
    · cases h
    · next hd => cases h; exact ⟨(d, v), rfl, hd⟩

/-- A reader of tagged choices, if one more bracket may be opened. -/
def Reader.tagged {α : Type} (room : Nat) (name tag : String) (known : List String)
    (choose : String → Option (Decoder α)) : Reader α where
  run s :=
    match head s with
    | .error e => .error e
    | .ok (.scalar v t) => .error (.at (.wrongKind v.found (.tagged name)) t)
    | .ok (.list t) =>
      if room = 0 then .error (.on .tooDeep ('[' :: t))
      else decodeBody (closed closeList
        (readTaggedList tag (.label known choose) (Value.reader (room - 1)) t))
    | .ok (.object t) =>
      if room = 0 then .error (.on .tooDeep ('\x7b' :: t))
      else decodeBody (closed closeObject
        (readTaggedObject tag (.label known choose) (Value.reader (room - 1)) t))
  shortens h := by
    split at h
    · cases h
    · cases h
    · next hh =>
      split at h
      · cases h
      · obtain ⟨_, hd, _⟩ := of_decodeBody h
        obtain ⟨_, hr, hc⟩ := of_closed hd
        have h1 := head_list_shortens hh
        have h2 := readTaggedList_length hr
        have h3 := closeList_shortens hc
        omega
    · next hh =>
      split at h
      · cases h
      · obtain ⟨_, hd, _⟩ := of_decodeBody h
        obtain ⟨_, hr, hc⟩ := of_closed hd
        have h1 := head_object_shortens hh
        have h2 := readTaggedObject_length hr
        have h3 := closeObject_shortens hc
        omega

mutual
/-- The reader of a shape with at most `room` brackets open at once. -/
def Shape.read (room : Nat) : {α : Type} → Shape α → Reader α
  | _, .scalar k => .scalar k
  | _, .optional s => (s.read room).optional
  | _, .list s => .list room (s.read (room - 1))
  | _, .record r => r.read room
  | _, .tagged name tag variants view =>
    (Reader.tagged room name tag variants.labels variants.choose).map view.whole

/-- The reader of a record. -/
def RecordShape.read (room : Nat) : {α : Type} → RecordShape α → Reader α
  | _, .mk name fields view => (Reader.record room name (fields.read (room - 1))).map view.whole

/-- The readers of the fields. -/
def Fields.read (room : Nat) : {ts : List Type} → Fields ts → Row (Entry Reader) ts
  | _, .nil => ()
  | _, .cons field s rest => (⟨field, s.read room⟩, rest.read room)
end

/-- The value that a text spells. -/
def Shape.ofText {α : Type} (s : Shape α) (source : String) : Except Fault α :=
  (s.read nesting).ofText source

/-! ### Encoding -/

/-- Nothing as null, and a value as itself. -/
def encodeOptional {α : Type} (encode : α → Value) : Option α → Value
  | none => .null
  | some a => encode a

mutual
/-- The value that spells a value of the shape. -/
def Shape.encode : {α : Type} → Shape α → α → Value
  | _, .scalar k, a => .scalar (k.toScalar a)
  | _, .optional s, a => encodeOptional s.encode a
  | _, .list s, as => .list (as.map s.encode)
  | _, .record r, a => .object (r.encode a)
  | _, .tagged _ tag variants view, a =>
    let (label, ms) := variants.encode (view.parts a)
    .object ((tag, .text label) :: ms)

/-- The entries of the object that spells a record. -/
def RecordShape.encode : {α : Type} → RecordShape α → α → List (String × Value)
  | _, .mk _ fields view, a => fields.encode (view.parts a)

/-- The entries for the fields in their order, without the hidden ones. -/
def Fields.encode : {ts : List Type} → Fields ts → Tuple ts → List (String × Value)
  | _, .nil, _ => []
  | _, .cons field s rest, (a, as) =>
    if field.hidden a then rest.encode as else (field.name, s.encode a) :: rest.encode as

/-- The label and the entries of the record that was chosen. -/
def Variants.encode : {ts : List Type} → Variants ts → Choice ts → String × List (String × Value)
  | _, .nil, x => nomatch x
  | _, .cons label r _, .inl a => (label, r.encode a)
  | _, .cons _ _ rest, .inr x => rest.encode x
end

end Json
end ModelStubs
