/-
# Cardinalities

How often an attribute may occur: at least `inf` times and at most `sup` times, or
without an upper bound. Whether it counts as many can be said outright; otherwise
it follows from the upper bound.

Key definitions: `Model.Cardinality`, `Model.Cardinality.isSingle`,
`Model.Cardinality.isMany`, `Model.Cardinality.shape`.
-/
import ModelStubs.Json.Written

namespace ModelStubs
namespace Model

open Json (Shape RecordShape Fields Field)

/-- How often an attribute may occur. -/
structure Cardinality where
  inf : UInt32
  /-- The upper bound, if there is one. -/
  sup : Option UInt32
  /-- Whether the attribute counts as many, if that is said outright. -/
  many : Option Bool
deriving DecidableEq, Repr

namespace Cardinality

/-- From `inf` to `sup`. -/
def bounded (inf : UInt32) (sup : Option UInt32) : Cardinality := ⟨inf, sup, none⟩

/-- Exactly once. -/
def single : Cardinality := bounded 1 (some 1)

/-- At most once. -/
def optional : Cardinality := bounded 0 (some 1)

/-- Any number of times. -/
def unbounded : Cardinality := bounded 0 none

/-- Never. -/
def absent : Cardinality := bounded 0 (some 0)

/-- Says outright whether the attribute counts as many. -/
def withMany (c : Cardinality) (many : Bool) : Cardinality := { c with many := some many }

/-- The upper bound is one. -/
def isSingle (c : Cardinality) : Bool := c.sup == some 1

/-- The bound lets the attribute occur more than once. -/
def exceedsOne : Option UInt32 → Bool
  | none => true
  | some n => 1 < n

/-- The attribute counts as many: as was said, or by the upper bound. -/
def isMany (c : Cardinality) : Bool := c.many.getD (exceedsOne c.sup)

/-- The bounds with two points between them, and a star for none. -/
def text (c : Cardinality) : String :=
  toString c.inf.toNat ++ ".." ++
    match c.sup with
    | none => "*"
    | some n => toString n.toNat

/-- The bounds and the flag, each with a default; an unset flag is not written. -/
def record : RecordShape Cardinality :=
  .mk "Cardinality"
    (.cons (.default "inf" 0) (.scalar .count)
      (.cons (.default "sup" none) (.optional (.scalar .count))
        (.cons (.hiding Bool "many") (.optional (.scalar .flag)) .nil)))
    { parts := fun c => (c.inf, c.sup, c.many, ())
      whole := fun (inf, sup, many, ()) => ⟨inf, sup, many⟩ }

/-- The spelling of a cardinality. -/
def shape : Shape Cardinality := .record record

end Cardinality
end Model
end ModelStubs
