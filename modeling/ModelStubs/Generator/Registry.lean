/-
# Registries

A registry holds generators under distinct names, in the order in which they were
registered.

Key definitions: `Registry`, `Registry.register`, `Registry.get?`, `Registry.run`,
`Registry.runAll`.
-/
import ModelStubs.Failure
import ModelStubs.Generator.Basic

namespace ModelStubs

open Model (Element Placement)

/-- Generators in the order of their registration, no two of one name. -/
structure Registry where
  generators : List Generator
  distinct : (generators.map Generator.name).Nodup

namespace Registry

/-- The registry without generators. -/
def empty : Registry := ⟨[], List.nodup_nil⟩

/-- The names of the generators, in the order of their registration. -/
def names (r : Registry) : List String := r.generators.map Generator.name

/-- No generator is registered. -/
def isEmpty (r : Registry) : Bool := r.generators.isEmpty

/-- The generator of the given name. -/
def get? (r : Registry) (name : String) : Option Generator :=
  r.generators.find? fun g => g.name == name

/-- The registry with one generator more, unless its name is taken. -/
def register (r : Registry) (g : Generator) : Except Failure Registry :=
  if h : g.name ∈ r.names then .error (.duplicateGenerator g.name)
  else .ok ⟨r.generators ++ [g], by
    rw [List.map_append, List.nodup_append]
    refine ⟨r.distinct, by simp, fun a ha b hb => ?_⟩
    simp only [List.map_cons, List.map_nil, List.mem_singleton] at hb
    subst hb
    exact fun e => h (e ▸ ha)⟩

/-- The files that the generator of the given name makes. -/
def run (r : Registry) (name : String) (p : Placement) (elements : List Element)
    (version : String) : Except Failure GeneratedFiles :=
  match r.get? name with
  | none => .error (.unknownGenerator name)
  | some g => .ok (g.generate p elements version)

/-- The files that each generator makes, under the names of the generators. -/
def runAll (r : Registry) (p : Placement) (elements : List Element) (version : String) :
    Listing String GeneratedFiles :=
  Listing.ofList (r.generators.map fun g => (g.name, g.generate p elements version))

end Registry
end ModelStubs
