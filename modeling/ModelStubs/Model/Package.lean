/-
# Packages

A package has a dotted name and the directory that its files are written to. The
generated code of a namespace goes into its model package, whose name is the
namespace with `model` behind it.

Key definitions: `Model.Package`, `Model.Package.ofName`, `Model.Placement`,
`Model.Placement.ofNamespace`.
-/
import ModelStubs.Json.Written

namespace ModelStubs
namespace Model

open Json (Shape RecordShape Fields Field)

/-- A dotted name and the directory of its files. -/
structure Package where
  name : String
  directory : String
deriving DecidableEq, Repr

/-- A dotted name with slashes for the dots. -/
def slashed (name : String) : String :=
  String.ofList (name.toList.map fun c => if c = '.' then '/' else c)

/-- The package whose directory follows from its name. -/
def Package.ofName (name : String) : Package := ⟨name, slashed name⟩

/-- A name and a directory. -/
def Package.record : RecordShape Package :=
  .mk "Package"
    (.cons (.required String "packageName") (.scalar .text)
      (.cons (.required String "directoryName") (.scalar .text) .nil))
    { parts := fun p => (p.name, p.directory, ())
      whole := fun (name, directory, ()) => ⟨name, directory⟩ }

/-- The spelling of a package. -/
def Package.shape : Shape Package := .record Package.record

/-- A namespace and the package that its generated code goes into. -/
structure Placement where
  namespaceName : String
  model : Package
deriving DecidableEq, Repr

namespace Placement

/-- The name of the model package of a namespace. -/
def modelName (namespaceName : String) : String :=
  if namespaceName.isEmpty then "model" else namespaceName ++ ".model"

/-- The placement that follows from the namespace. -/
def ofNamespace (namespaceName : String) : Placement :=
  ⟨namespaceName, Package.ofName (modelName namespaceName)⟩

/-- The placement with another model package. -/
def withModel (p : Placement) (model : Package) : Placement := { p with model := model }

/-- A namespace and a package. -/
def record : RecordShape Placement :=
  .mk "Packages"
    (.cons (.required String "namespace") (.scalar .text)
      (.cons (.required Package "model") Package.shape .nil))
    { parts := fun p => (p.namespaceName, p.model, ())
      whole := fun (namespaceName, model, ()) => ⟨namespaceName, model⟩ }

/-- The spelling of a placement. -/
def shape : Shape Placement := .record record

end Placement
end Model
end ModelStubs
