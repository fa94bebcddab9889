import SchemaLang.Attribute.Basic
import SchemaLang.FieldType.Basic

/-!
# Definitions

The enums, structs and messages of a schema with their fields.

* `Definition.field?` and the attribute selectors find the first field of a name and the first attribute of a keyword.
* `Definition.insert` puts a definition into a list with one entry per name: a name that is there keeps its position,
  and a new name comes last (`Definition.insert_of_new`).
-/

namespace SchemaLang

/-- The kinds of definitions. -/
inductive DefinitionKind where
  | enum
  | struct
  | message
  deriving DecidableEq

namespace DefinitionKind

/-- The word that starts a definition of the kind. -/
def keyword : DefinitionKind → String
  | enum => "enum"
  | struct => "struct"
  | message => "message"

/-- The name of the kind in an exported schema. -/
def exportName : DefinitionKind → String
  | enum => "Enum"
  | struct => "Struct"
  | message => "Message"

end DefinitionKind

/-- A word with its indefinite article. -/
def withArticle (word : String) : String :=
  match word.toList.head? with
  | some 'a' | some 'e' | some 'i' | some 'o' | some 'u' => "an " ++ word
  | _ => "a " ++ word

/-- A constant of an enum or a field of a struct or a message. -/
structure Field where
  name : String
  type : FieldType
  span : Span
  /-- The attribute by which the field is deprecated. -/
  deprecated : Option Attribute
  /-- The index of a message field, the value of an enum constant, zero in a struct. -/
  value : Int
  documentation : String
  deriving DecidableEq

/-- The reason that a deprecated field gives. -/
def Field.deprecatedReason? (f : Field) : Option String :=
  match f.deprecated with
  | some (.deprecated reason) => some reason
  | _ => none

/-- An enum, a struct or a message. -/
structure Definition where
  name : String
  kind : DefinitionKind
  isReadOnly : Bool
  span : Span
  documentation : String
  attributes : List Attribute
  fields : List Field
  deriving DecidableEq

namespace Definition

/-- The first field of a name. -/
def field? (d : Definition) (name : String) : Option Field := d.fields.find? fun f => f.name = name

/-- The first attribute with a keyword. -/
def attribute? (d : Definition) (keyword : String) : Option Attribute :=
  d.attributes.find? fun a => a.keyword = keyword

/-- The definition of a name. -/
def find? (definitions : List Definition) (name : String) : Option Definition :=
  definitions.find? fun d => d.name = name

/-- The definitions with one more. It takes the place of a definition of its name, or else comes last. -/
def insert (d : Definition) : List Definition → List Definition
  | [] => [d]
  | e :: rest => if e.name = d.name then d :: rest else e :: insert d rest

/-- A new name comes last. -/
theorem insert_of_new {d : Definition} : ∀ {definitions : List Definition},
    (definitions.any fun e => e.name = d.name) = false → insert d definitions = definitions ++ [d]
  | [], _ => rfl
  | e :: rest, h => by
    rw [List.any_cons, Bool.or_eq_false_iff] at h
    rw [insert, if_neg (of_decide_eq_false h.1), insert_of_new h.2, List.cons_append]

end Definition

end SchemaLang
