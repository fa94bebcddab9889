import SchemaLang.Evaluator
import SchemaLang.Proofs.Grammar.Schema
import SchemaLang.Proofs.JsonReading
import SchemaLang.Schema.Export

/-!
# Reading exported schemas

An exported schema is read again: the text as a JSON document (`Json.read?`), and the document as a schema.

* `Schema.ofJson?` and its parts take JSON values with the keys of an export in their order, and give back what was
  exported (`FieldType.ofJson?_toJson`, `Definition.ofJson?_toJson`, `Schema.ofJson?_toJson`).
* No object in an export repeats a key, if no two definitions of the schema have one name
  (`Schema.keysDistinct_toJson`).
* Main result: `Evaluator.export_of_evaluate`. Of a schema that an evaluator gives, the export loses nothing.
-/

namespace SchemaLang

/-! ## Values from JSON -/

/-- The built-in type with a name in exported schemas. -/
def Scalar.ofExportName? (word : String) : Option Scalar := all.find? fun s => s.exportName = word

/-- The kind with a name in exported schemas. -/
def DefinitionKind.ofExportName? (word : String) : Option DefinitionKind :=
  [enum, struct, message].find? fun kind => kind.exportName = word

/-- The number that counts something, if the value is one. -/
def Json.count? : Json → Option Nat
  | .number (.ofNat n) => some n
  | _ => none

/-- The text that a JSON value is. -/
def Json.text? : Json → Option String
  | .string value => some value
  | _ => none

/-- The position that a JSON value describes. -/
def Position.ofJson? : Json → Option Position
  | .object [("offset", offset), ("line", line), ("column", column)] => do
    return ⟨← offset.count?, ← line.count?, ← column.count?⟩
  | _ => none

/-- The span that a JSON value describes. -/
def Span.ofJson? : Json → Option Span
  | .object [("file", file), ("start", start), ("end", stop)] => do
    return ⟨← file.count?, ← Position.ofJson? start, ← Position.ofJson? stop⟩
  | _ => none

/-- The type that a JSON value describes. Only arrays need the displayed text. -/
def FieldType.ofJson? : Json → Option FieldType
  | .object [("kind", .string "Scalar"), ("base", .string base), ("span", span), ("display", _)] => do
    return scalar (← Scalar.ofExportName? base) (← Span.ofJson? span)
  | .object [("kind", .string "Array"), ("element", element), ("span", span), ("display", .string display)] => do
    return array (← ofJson? element) (← Span.ofJson? span) display
  | .object [("kind", .string "Map"), ("key", key), ("value", value), ("span", span), ("display", _)] => do
    return map (← ofJson? key) (← ofJson? value) (← Span.ofJson? span)
  | .object [("kind", .string "Defined"), ("name", .string name), ("span", span), ("display", _)] => do
    return defined name (← Span.ofJson? span)
  | _ => none

/-- The attribute that a JSON value describes. -/
def Attribute.ofJson? : Json → Option Attribute
  | .object [("kind", .string "deprecated"), ("reason", .string reason)] => some (deprecated reason)
  | .object [("kind", .string "opcode"), ("value", .string value), ("is_number", .bool isNumber)] =>
    some (opcode value isNumber)
  | .object [("kind", .string "query"), ("value", .string value)] => some (query value)
  | .object [("kind", .string "command")] => some command
  | .object [("kind", .string "authorizeWhenHasAnyOf"), ("permissions", .array permissions)] =>
    (permissions.mapM Json.text?).map authorize
  | _ => none

/-- The attribute that a JSON value describes, if it is not null. -/
def Attribute.slotOfJson? : Json → Option (Option Attribute)
  | .null => some none
  | value => (ofJson? value).map some

/-- The field that a JSON value describes. -/
def Field.ofJson? : Json → Option Field
  | .object [("name", .string name), ("type", type), ("span", span), ("deprecated", deprecated),
      ("index_or_value", .number value), ("documentation", .string documentation)] => do
    return {
      name
      type := ← FieldType.ofJson? type
      span := ← Span.ofJson? span
      deprecated := ← Attribute.slotOfJson? deprecated
      value
      documentation }
  | _ => none

/-- The definition that a JSON value describes. -/
def Definition.ofJson? : Json → Option Definition
  | .object [("name", .string name), ("is_read_only", .bool isReadOnly), ("span", span), ("kind", .string kind),
      ("fields", .array fields), ("documentation", .string documentation), ("attributes", .array attributes)] => do
    return {
      name
      kind := ← DefinitionKind.ofExportName? kind
      isReadOnly
      span := ← Span.ofJson? span
      documentation
      attributes := ← attributes.mapM Attribute.ofJson?
      fields := ← fields.mapM Field.ofJson? }
  | _ => none

/-- The definition that a member of an object describes. Its key is the name. -/
def Definition.ofMember? (member : String × Json) : Option Definition :=
  (ofJson? member.2).filter fun d => d.name = member.1

/-- The schema that a JSON value describes. -/
def Schema.ofJson? : Json → Option Schema
  | .object [("namespace", .string ns), ("definitions", .object definitions)] => do
    return ⟨ns, ← definitions.mapM Definition.ofMember?⟩
  | _ => none

/-! ## What was exported is read -/

/-- If what every entry becomes is read as the entry, what a list becomes is read as the list. -/
theorem mapM_map_eq_some {α β : Type} {f : α → β} {g : β → Option α} : ∀ {xs : List α},
    (∀ x ∈ xs, g (f x) = some x) → (xs.map f).mapM g = some xs
  | [], _ => rfl
  | x :: xs, h => by
    have hxs := mapM_map_eq_some fun y hy => h y (List.mem_cons_of_mem x hy)
    simp [List.mapM_cons, h x List.mem_cons_self, hxs]

@[simp] theorem Scalar.ofExportName?_exportName (s : Scalar) : ofExportName? s.exportName = some s := by
  cases s <;> decide

@[simp] theorem DefinitionKind.ofExportName?_exportName (kind : DefinitionKind) :
    ofExportName? kind.exportName = some kind := by
  cases kind <;> decide

@[simp] theorem Json.count?_count (n : Nat) : (count n).count? = some n := rfl

@[simp] theorem Position.ofJson?_toJson (p : Position) : ofJson? p.toJson = some p := by
  simp [toJson, ofJson?]

@[simp] theorem Span.ofJson?_toJson (s : Span) : ofJson? s.toJson = some s := by
  simp [toJson, ofJson?]

@[simp] theorem FieldType.ofJson?_toJson (t : FieldType) : ofJson? t.toJson = some t := by
  induction t with
  | scalar base span => simp [toJson, ofJson?, FieldType.span]
  | array element span display ih => simp [toJson, ofJson?, FieldType.span, FieldType.display, ih]
  | map key value span ihk ihv => simp [toJson, ofJson?, FieldType.span, ihk, ihv]
  | defined name span => simp [toJson, ofJson?, FieldType.span]

@[simp] theorem Attribute.ofJson?_toJson (a : Attribute) : ofJson? a.toJson = some a := by
  cases a with
  | authorize permissions =>
    have h : (permissions.map Json.string).mapM Json.text? = some permissions := mapM_map_eq_some fun _ _ => rfl
    simp [toJson, ofJson?, keyword, h]
  | _ => simp [toJson, ofJson?, keyword]

@[simp] theorem Attribute.slotOfJson?_toJson (a : Option Attribute) : slotOfJson? (a.elim .null toJson) = some a := by
  cases a with
  | none => rfl
  | some a =>
    rw [Option.elim, slotOfJson?, ofJson?_toJson]
    · rfl
    · intro h
      cases h

@[simp] theorem Field.ofJson?_toJson (f : Field) : ofJson? f.toJson = some f := by
  simp [toJson, ofJson?]

@[simp] theorem Definition.ofJson?_toJson (d : Definition) : ofJson? d.toJson = some d := by
  have hattributes : (d.attributes.map Attribute.toJson).mapM Attribute.ofJson? = some d.attributes :=
    mapM_map_eq_some fun a _ => a.ofJson?_toJson
  have hfields : (d.fields.map Field.toJson).mapM Field.ofJson? = some d.fields :=
    mapM_map_eq_some fun f _ => f.ofJson?_toJson
  simp [toJson, ofJson?, hattributes, hfields]

/-- What a schema exports is read as the schema. -/
theorem Schema.ofJson?_toJson (s : Schema) : ofJson? s.toJson = some s := by
  have hdefinitions : (s.definitions.map fun d => (d.name, d.toJson)).mapM Definition.ofMember? =
      some s.definitions := by
    refine mapM_map_eq_some fun d _ => ?_
    simp [Definition.ofMember?]
  simp [toJson, ofJson?, hdefinitions]

/-! ## No repeated keys -/

/-- No object in a JSON value has two members of one key. -/
inductive Json.KeysDistinct : Json → Prop
  | null : KeysDistinct null
  | bool (value : Bool) : KeysDistinct (bool value)
  | number (value : Int) : KeysDistinct (number value)
  | string (value : String) : KeysDistinct (string value)
  | array {items : List Json} : (∀ item ∈ items, KeysDistinct item) → KeysDistinct (array items)
  | object {members : List (String × Json)} :
    (members.map Prod.fst).Nodup → (∀ member ∈ members, KeysDistinct member.2) → KeysDistinct (object members)

namespace Json

@[simp] theorem keysDistinct_count (n : Nat) : (count n).KeysDistinct := .number _

@[simp] theorem keysDistinct_array_iff {items : List Json} :
    (array items).KeysDistinct ↔ ∀ item ∈ items, item.KeysDistinct :=
  ⟨fun h => by cases h; assumption, .array⟩

@[simp] theorem keysDistinct_object_iff {members : List (String × Json)} :
    (object members).KeysDistinct ↔ (members.map Prod.fst).Nodup ∧ ∀ member ∈ members, member.2.KeysDistinct :=
  ⟨fun h => by cases h; exact ⟨‹_›, ‹_›⟩, fun h => .object h.1 h.2⟩

end Json

open Json

attribute [simp] KeysDistinct.null KeysDistinct.bool KeysDistinct.number KeysDistinct.string

@[simp] theorem Position.keysDistinct_toJson (p : Position) : p.toJson.KeysDistinct := by
  simp [toJson]

@[simp] theorem Span.keysDistinct_toJson (s : Span) : s.toJson.KeysDistinct := by
  simp [toJson]

@[simp] theorem FieldType.keysDistinct_toJson (t : FieldType) : t.toJson.KeysDistinct := by
  induction t with
  | scalar base span => simp [toJson]
  | array element span display ih => simp [toJson, ih]
  | map key value span ihk ihv => simp [toJson, ihk, ihv]
  | defined name span => simp [toJson]

@[simp] theorem Attribute.keysDistinct_toJson (a : Attribute) : a.toJson.KeysDistinct := by
  cases a <;> simp [toJson]

@[simp] theorem Field.keysDistinct_toJson (f : Field) : f.toJson.KeysDistinct := by
  have hdeprecated : (f.deprecated.elim .null Attribute.toJson).KeysDistinct := by
    cases f.deprecated <;> simp
  simp [toJson, hdeprecated]

@[simp] theorem Definition.keysDistinct_toJson (d : Definition) : d.toJson.KeysDistinct := by
  simp [toJson]

/-- The export of definitions with different names repeats no key. -/
theorem Schema.keysDistinct_toJson {s : Schema} (h : (s.definitions.map Definition.name).Nodup) :
    s.toJson.KeysDistinct := by
  have hdefinitions : (object (s.definitions.map fun d => (d.name, d.toJson))).KeysDistinct := by
    refine keysDistinct_object_iff.2 ⟨by simpa [Function.comp_def] using h, ?_⟩
    simp
  simpa [toJson] using hdefinitions

/-! ## The schemas that are exported -/

namespace Schema

theorem names_nodup_of_ofTokens {tokens : List Token} {ns : String} {s : Schema} (h : ofTokens tokens ns = .ok s) :
    (s.definitions.map Definition.name).Nodup := by
  obtain ⟨d, _, rfl⟩ := exists_derivation h
  rw [d.names_schema]
  exact d.distinct

/-- Reading the text of an exported schema gives the schema back. -/
theorem read?_exported (s : Schema) : (Json.read? s.exported).bind ofJson? = some s := by
  rw [exported, Json.read?_pretty, Option.bind_some, ofJson?_toJson]

/-- Two schemas with one text are one schema. -/
theorem exported_injective : Function.Injective exported := by
  intro s t h
  have hs := s.read?_exported
  rw [h, t.read?_exported] at hs
  exact (Option.some.inj hs).symm

end Schema

namespace Evaluator

theorem names_nodup_of_evaluate {disk : Disk} {e : Evaluator} {s : Schema} (h : (e.evaluate disk).1 = .ok s) :
    (s.definitions.map Definition.name).Nodup := by
  rw [evaluate_fst] at h
  obtain ⟨tokens, _, hread⟩ := exists_of_bind_eq_ok h
  exact Schema.names_nodup_of_ofTokens hread

/-- A schema that is compiled is the schema of an evaluation. -/
theorem evaluate_of_compile {disk : Disk} {e : Evaluator} {s : Schema} (h : e.compile disk = .ok s) :
    (e.evaluate disk).1 = .ok s := by
  rw [compile] at h
  obtain ⟨t, hs, hv⟩ := exists_of_bind_eq_ok h
  obtain ⟨_, _, rfl⟩ := exists_of_map_eq_ok hv
  exact hs

/-- Whatever schema an evaluator gives, its export is the text of a JSON document without repeated keys, in which all of
the schema is found again. No other schema has this text. -/
theorem export_of_evaluate {disk : Disk} {e : Evaluator} {s : Schema}
    (h : (e.evaluate disk).1 = .ok s ∨ e.compile disk = .ok s) :
    (∃ document, Json.read? s.exported = some document ∧ document.KeysDistinct ∧ Schema.ofJson? document = some s) ∧
      ∀ t : Schema, t.exported = s.exported → t = s := by
  have he : (e.evaluate disk).1 = .ok s := h.elim id evaluate_of_compile
  refine ⟨⟨s.toJson, Json.read?_pretty s.toJson, ?_, s.ofJson?_toJson⟩, fun t ht => Schema.exported_injective ht⟩
  exact Schema.keysDistinct_toJson (names_nodup_of_evaluate he)

/-- A message whose name, which its only field uses inside two other types, is written with three kinds of escapes. -/
theorem export_of_evaluate_escapes :
    let contents : List (TokenKind × String) := [(.blockComment, "a\tb"), (.message, "message"),
      (.identifier, "\"\n\x01é"), (.openBrace, "\x7b"), (.number, "1"), (.hyphen, "-"), (.greater, ">"), (.map, "map"),
      (.openBracket, "["), (.identifier, "string"), (.comma, ","), (.identifier, "\"\n\x01é"), (.openBracket, "["),
      (.closeBracket, "]"), (.closeBracket, "]"), (.identifier, ""), (.semicolon, ";"), (.closeBrace, "\x7d")]
    let e := new (.tokens (contents.map fun c => ⟨c.1, c.2, Span.zero⟩)) "\\"
    ∃ s, (e.evaluate Disk.empty).1 = .ok s ∧
      (∃ document, Json.read? s.exported = some document ∧ document.KeysDistinct ∧
        Schema.ofJson? document = some s) ∧ ∀ t : Schema, t.exported = s.exported → t = s := by
  intro contents e
  obtain ⟨s, hs⟩ : ∃ s, (e.evaluate Disk.empty).1 = .ok s := exists_of_isOk (by decide +kernel)
  exact ⟨s, hs, export_of_evaluate (.inl hs)⟩

end Evaluator

end SchemaLang
