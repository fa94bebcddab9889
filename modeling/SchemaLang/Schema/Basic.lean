import SchemaLang.Definition.Basic

/-!
# Schemas

A schema is a namespace with definitions in the order of their declaration.
-/

namespace SchemaLang

/-- A namespace with its definitions, in the order of declaration. -/
structure Schema where
  ns : String
  definitions : List Definition
  deriving DecidableEq

/-- The definition of a name. -/
def Schema.definition? (s : Schema) (name : String) : Option Definition := Definition.find? s.definitions name

end SchemaLang
