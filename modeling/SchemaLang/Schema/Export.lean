import SchemaLang.Json
import SchemaLang.Schema.Basic

/-!
# Exported schemas

The JSON form of schemas and of their parts, with the keys in a fixed order. Types and attributes name their kind first,
and the definitions of a schema are an object whose keys are their names, in the order of declaration.
-/

namespace SchemaLang

/-- A number that counts something. -/
def Json.count (n : Nat) : Json := .number (Int.ofNat n)

/-- The JSON form of a position. -/
def Position.toJson (p : Position) : Json :=
  .object [("offset", .count p.offset), ("line", .count p.line), ("column", .count p.column)]

/-- The JSON form of a span. -/
def Span.toJson (s : Span) : Json :=
  .object [("file", .count s.file), ("start", s.start.toJson), ("end", s.stop.toJson)]

/-- The JSON form of a type. -/
def FieldType.toJson (t : FieldType) : Json :=
  let common := [("span", t.span.toJson), ("display", .string t.display)]
  match t with
  | scalar base _ => .object ([("kind", .string "Scalar"), ("base", .string base.exportName)] ++ common)
  | array element _ _ => .object ([("kind", .string "Array"), ("element", element.toJson)] ++ common)
  | map key value _ => .object ([("kind", .string "Map"), ("key", key.toJson), ("value", value.toJson)] ++ common)
  | defined name _ => .object ([("kind", .string "Defined"), ("name", .string name)] ++ common)

/-- The JSON form of an attribute. -/
def Attribute.toJson (a : Attribute) : Json :=
  let payload : List (String × Json) := match a with
    | deprecated reason => [("reason", .string reason)]
    | opcode value isNumber => [("value", .string value), ("is_number", .bool isNumber)]
    | query value => [("value", .string value)]
    | command => []
    | authorize permissions => [("permissions", .array (permissions.map Json.string))]
  .object (("kind", .string a.keyword) :: payload)

/-- The JSON form of a field. -/
def Field.toJson (f : Field) : Json :=
  .object [
    ("name", .string f.name),
    ("type", f.type.toJson),
    ("span", f.span.toJson),
    ("deprecated", f.deprecated.elim .null Attribute.toJson),
    ("index_or_value", .number f.value),
    ("documentation", .string f.documentation)]

/-- The JSON form of a definition. -/
def Definition.toJson (d : Definition) : Json :=
  .object [
    ("name", .string d.name),
    ("is_read_only", .bool d.isReadOnly),
    ("span", d.span.toJson),
    ("kind", .string d.kind.exportName),
    ("fields", .array (d.fields.map Field.toJson)),
    ("documentation", .string d.documentation),
    ("attributes", .array (d.attributes.map Attribute.toJson))]

namespace Schema

/-- The JSON form of a schema. -/
def toJson (s : Schema) : Json :=
  .object [
    ("namespace", .string s.ns),
    ("definitions", .object (s.definitions.map fun d => (d.name, d.toJson)))]

/-- The text of an exported schema. -/
def exported (s : Schema) : String := s.toJson.pretty

end Schema

end SchemaLang
