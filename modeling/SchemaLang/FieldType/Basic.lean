import SchemaLang.Span

/-!
# Field types

The types of fields, with the places where they are written.

* `Scalar` lists the built-in types; `Scalar.ofName?` and `Scalar.name` are inverse to each other
  (`Scalar.ofName?_eq_some_iff`).
* `FieldType.display` is the text of a type in messages. Arrays carry theirs, as both spellings of an array are the same
  type; `FieldType.arrayOf` gives the usual one.
* `FieldType.sameShape` compares two types without their places and spellings.
* `FieldType.leaves` lists the defined names inside a type from left to right, each with its place.
-/

namespace SchemaLang

/-- The built-in types. -/
inductive Scalar where
  | bool | byte | uint8 | uint16 | uint32 | uint64 | int8 | int16 | int32 | int64 | float32 | float64 | string | guid
  | date
  deriving DecidableEq

namespace Scalar

/-- The name of a built-in type in a schema. -/
def name : Scalar → String
  | bool => "bool"
  | byte => "byte"
  | uint8 => "uint8"
  | uint16 => "uint16"
  | uint32 => "uint32"
  | uint64 => "uint64"
  | int8 => "int8"
  | int16 => "int16"
  | int32 => "int32"
  | int64 => "int64"
  | float32 => "float32"
  | float64 => "float64"
  | string => "string"
  | guid => "guid"
  | date => "date"

/-- The name of a built-in type in an exported schema. -/
def exportName : Scalar → String
  | bool => "Bool"
  | byte => "Byte"
  | uint8 => "UInt8"
  | uint16 => "UInt16"
  | uint32 => "UInt32"
  | uint64 => "UInt64"
  | int8 => "Int8"
  | int16 => "Int16"
  | int32 => "Int32"
  | int64 => "Int64"
  | float32 => "Float32"
  | float64 => "Float64"
  | string => "String"
  | guid => "Guid"
  | date => "Date"

/-- All built-in types. -/
def all : List Scalar :=
  [bool, byte, uint8, uint16, uint32, uint64, int8, int16, int32, int64, float32, float64, string, guid, date]

/-- The built-in type with a name. -/
def ofName? (word : String) : Option Scalar := all.find? fun s => s.name = word

theorem ofName?_name (s : Scalar) : ofName? s.name = some s := by cases s <;> decide

/-- Reading a name gives exactly the type that has it. -/
theorem ofName?_eq_some_iff {word : String} {s : Scalar} : ofName? word = some s ↔ s.name = word := by
  constructor
  · intro h
    simpa using List.find?_some h
  · rintro rfl
    exact ofName?_name s

end Scalar

/-- The type of a field. -/
inductive FieldType where
  | scalar (base : Scalar) (span : Span)
  /-- An array, with its text in messages. -/
  | array (element : FieldType) (span : Span) (display : String)
  | map (key value : FieldType) (span : Span)
  /-- The name of a definition. -/
  | defined (name : String) (span : Span)
  deriving DecidableEq

namespace FieldType

/-- Where the type is written. -/
def span : FieldType → Span
  | scalar _ span => span
  | array _ span _ => span
  | map _ _ span => span
  | defined _ span => span

/-- The text of the type in messages. -/
def display : FieldType → String
  | scalar base _ => base.name
  | array _ _ display => display
  | map key value _ => "map[" ++ key.display ++ ", " ++ value.display ++ "]"
  | defined name _ => name

/-- The array of a type, displayed with brackets after the element. -/
def arrayOf (element : FieldType) (span : Span) : FieldType := array element span (element.display ++ "[]")

/-- Whether the type is built in. -/
def isScalar : FieldType → Bool
  | scalar _ _ => true
  | _ => false

/-- Equality of types up to places and spellings. -/
def sameShape : FieldType → FieldType → Bool
  | scalar a _, scalar b _ => a = b
  | array a _ _, array b _ _ => a.sameShape b
  | map k v _, map k' v' _ => k.sameShape k' && v.sameShape v'
  | defined a _, defined b _ => a = b
  | _, _ => false

/-- The defined names inside a type with their places, from left to right. -/
def leaves : FieldType → List (String × Span)
  | scalar _ _ => []
  | array element _ _ => element.leaves
  | map key value _ => key.leaves ++ value.leaves
  | defined name span => [(name, span)]

/-- The defined names inside a type, from left to right. -/
def definedNames (t : FieldType) : List String := t.leaves.map Prod.fst

end FieldType

end SchemaLang
