/-
# JSON values

A value as it was written: objects keep their entries in order, and a key may
stand in them twice. A value is read with a limit on the brackets that may be open
at once.

Key definitions: `Json.Value`, `Json.Reader.value`, `Json.Value.reader`.
-/
import ModelStubs.Json.Reader

namespace ModelStubs
namespace Json

/-- A JSON value. -/
inductive Value
  | scalar (v : Scalar)
  | list (vs : List Value)
  | object (ms : List (String × Value))
deriving Repr, Inhabited

namespace Value

/-- A string as a value. -/
def text (s : String) : Value := .scalar (.text s)

/-- A truth value as a value. -/
def flag (b : Bool) : Value := .scalar (.flag b)

/-- A number from zero as a value. -/
def natural (n : Nat) : Value := .scalar (.number (.natural n))

/-- The value that stands for nothing. -/
def null : Value := .scalar .null

end Value

/-- The value of a key in any object: a colon and a value. -/
def Reader.afterColon {α : Type} (item : Reader α) (s : List Char) :
    Except Stop (α × List Char) :=
  match colon s with
  | .error e => .error e
  | .ok t => item.run t

theorem Reader.afterColon_shortens {α : Type} {item : Reader α} {s t : List Char} {a : α}
    (h : item.afterColon s = .ok (a, t)) : t.length < s.length := by
  unfold Reader.afterColon at h
  split at h
  · cases h
  · next hc => exact Nat.lt_trans (item.shortens h) (colon_shortens hc)

/-- Adds the entry to those read before, which are in reverse. -/
def MemberReader.collect {α : Type} (item : Reader α) : MemberReader (List (String × α)) where
  run ms k s :=
    match item.afterColon s with
    | .error e => .error e
    | .ok (a, t) => .ok ((k, a) :: ms, t)
  keeps h := by
    split at h
    · cases h
    · next ha => cases h; exact Nat.le_of_lt (Reader.afterColon_shortens ha)

/-- What a bracket encloses as one result. -/
def mapped {α β : Type} (f : α → β) : Except Stop (α × List Char) → Except Stop (β × List Char)
  | .error e => .error e
  | .ok (a, s) => .ok (f a, s)

theorem of_mapped {α β : Type} {f : α → β} {r : Except Stop (α × List Char)} {b : β}
    {t : List Char} (h : mapped f r = .ok (b, t)) : ∃ a, r = .ok (a, t) ∧ f a = b := by
  unfold mapped at h
  split at h
  · cases h
  · next a s => cases h; exact ⟨a, rfl, rfl⟩

/-- The entries of a list behind its bracket, with the closing bracket. -/
def listRest {α : Type} (item : Reader α) (s : List Char) : Except Stop (List α × List Char) :=
  closed closeList (items item true [] s)

theorem listRest_shortens {α : Type} {item : Reader α} {s t : List Char} {as : List α}
    (h : listRest item s = .ok (as, t)) : t.length < s.length := by
  obtain ⟨u, hu, hc⟩ := of_closed h
  exact Nat.lt_of_lt_of_le (closeList_shortens hc) (items_length hu)

/-- The entries of an object behind its bracket, with the closing bracket. -/
def objectRest {α : Type} (item : Reader α) (s : List Char) :
    Except Stop (List (String × α) × List Char) :=
  mapped List.reverse (closed closeObject (members (.collect item) true [] s))

theorem objectRest_shortens {α : Type} {item : Reader α} {s t : List Char}
    {ms : List (String × α)} (h : objectRest item s = .ok (ms, t)) : t.length < s.length := by
  obtain ⟨_, h, _⟩ := of_mapped h
  obtain ⟨u, hu, hc⟩ := of_closed h
  exact Nat.lt_of_lt_of_le (closeObject_shortens hc) (members_length hu)

/-- A reader of any value. Without a reader for what stands in brackets no bracket
may be opened. -/
def Reader.value (inner : Option (Reader Value)) : Reader Value where
  run s :=
    match head s with
    | .error e => .error e
    | .ok (.scalar v t) => .ok (.scalar v, t)
    | .ok (.list t) =>
      match inner with
      | none => .error (.on .tooDeep ('[' :: t))
      | some item => mapped .list (listRest item t)
    | .ok (.object t) =>
      match inner with
      | none => .error (.on .tooDeep ('\x7b' :: t))
      | some item => mapped .object (objectRest item t)
  shortens h := by
    split at h
    · cases h
    · next hh => cases h; exact head_scalar_shortens hh
    · next hh =>
      split at h
      · cases h
      · obtain ⟨_, h, _⟩ := of_mapped h
        exact Nat.lt_trans (listRest_shortens h) (head_list_shortens hh)
    · next hh =>
      split at h
      · cases h
      · obtain ⟨_, h, _⟩ := of_mapped h
        exact Nat.lt_trans (objectRest_shortens h) (head_object_shortens hh)

/-- A reader of values with at most `room` brackets open at once. -/
def Value.reader : Nat → Reader Value
  | 0 => .value none
  | room + 1 => .value (some (Value.reader room))

/-- How many brackets may be open at once in a text. -/
def nesting : Nat := 127

/-- The end of a text: only spaces may be left. -/
def endOfText {α : Type} : Except Stop (α × List Char) → Except Stop α
  | .error e => .error e
  | .ok (a, s) => if (skipSpace s).isEmpty then .ok a else .error (.on .trailing (skipSpace s))

/-- Reads a whole text. -/
def Reader.ofText {α : Type} (r : Reader α) (source : String) : Except Fault α :=
  match endOfText (r.run source.toList) with
  | .error stop => .error (stop.fault source.toList)
  | .ok a => .ok a

end Json
end ModelStubs
