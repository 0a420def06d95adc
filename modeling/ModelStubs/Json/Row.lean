/-
# Rows, choices and fields

A record is read field by field, and its fields have different types. A row holds
one thing for each of a list of types: the values, the values found so far, or the
readers. A choice holds a value of one of the types. A field has a name, the value
that stands for it when it is absent, and the values it is not written for.

Key definitions: `Json.Row`, `Json.Choice`, `Json.View`, `Json.Field`, `Json.complete`.
-/
import ModelStubs.Json.Value

namespace ModelStubs
namespace Json

/-- One thing for each type. -/
def Row (F : Type → Type) : List Type → Type
  | [] => Unit
  | t :: ts => F t × Row F ts

/-- One value of each type. -/
abbrev Tuple (ts : List Type) : Type := Row (fun t => t) ts

/-- A value of one of the types. -/
def Choice : List Type → Type
  | [] => Empty
  | t :: ts => t ⊕ Choice ts

/-- Two ways to see the same value: as a whole and by its parts. -/
structure View (α β : Type) where
  parts : α → β
  whole : β → α
  whole_parts : ∀ a, whole (parts a) = a := by intro a; cases a; rfl
  parts_whole : ∀ b, parts (whole b) = b := by intro b; rfl

/-- The name of a field, the value it has when it is absent, and whether a value
is left out when it is written. Only the value of an absent field is left out. -/
structure Field (α : Type) where
  name : String
  absent : Option α
  hidden : α → Bool := fun _ => false
  absent_of_hidden : ∀ a, hidden a = true → absent = some a := by intro a h; cases h

/-- A field without a default. -/
def Field.required (α : Type) (name : String) : Field α := { name, absent := none }

/-- A field that has the given value when it is absent. -/
def Field.default {α : Type} (name : String) (a : α) : Field α := { name, absent := some a }

/-- A field that may be absent and is left out then. -/
def Field.hiding (α : Type) (name : String) : Field (Option α) where
  name := name
  absent := some none
  hidden := Option.isNone
  absent_of_hidden a h := by cases a <;> simp_all

/-- A field and what is done with its value. -/
structure Entry (F : Type → Type) (α : Type) where
  field : Field α
  body : F α

/-- No value found yet. -/
def Row.none : {ts : List Type} → Row Option ts
  | [] => ()
  | _ :: _ => (Option.none, Row.none)

/-- The names of the fields. -/
def Row.names {F : Type → Type} : {ts : List Type} → Row (Entry F) ts → List String
  | [], _ => []
  | _ :: _, (e, es) => e.field.name :: Row.names es

/-- The values found, with the defaults for those that were not. -/
def complete {F : Type → Type} : {ts : List Type} → Row (Entry F) ts → Row Option ts →
    Except Cause (Tuple ts)
  | [], _, _ => .ok ()
  | _ :: _, (e, es), (slot, slots) =>
    match slot.or e.field.absent with
    | none => .error (.missing e.field.name)
    | some a =>
      match complete es slots with
      | .error c => .error c
      | .ok as => .ok (a, as)

end Json
end ModelStubs
