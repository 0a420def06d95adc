/-
# Type names

The primitive types of a model have names of their own in the generated code; any
other type is one of the model and keeps its name.

Key definitions: `Stub.primitiveTypes`, `Stub.targetType`.
-/
namespace ModelStubs
namespace Stub

/-- The primitive types of a model and their names in generated code. -/
def primitiveTypes : List (String × String) :=
  [("string", "String"),
   ("int", "Integer"),
   ("number", "BigDecimal"),
   ("boolean", "Boolean"),
   ("date", "LocalDate"),
   ("time", "LocalTime"),
   ("dateTime", "LocalDateTime"),
   ("zonedDateTime", "ZonedDateTime")]

/-- The name of a type in generated code. -/
def targetType (type : String) : String := (primitiveTypes.lookup type).getD type

end Stub
end ModelStubs
