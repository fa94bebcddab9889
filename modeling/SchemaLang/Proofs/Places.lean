import SchemaLang.Proofs.Lexing
import SchemaLang.Proofs.Relocation

/-!
# Without places

* `bare` is a token, a type, a field, a definition, a schema or a problem without the places where it is written. What
  has no place has the place `Span.zero`. To take places away is to change them (`FieldType.relocate_forget`, ...).
* What a token says is no place (`Token.map_bare_congr`), nor are the texts and the names in a type
  (`FieldType.display_bare`, `FieldType.definedNames_bare`).
-/

namespace SchemaLang

/-- A type without its places. -/
def FieldType.bare : FieldType → FieldType
  | scalar base _ => scalar base Span.zero
  | array element _ display => array element.bare Span.zero display
  | map key value _ => map key.bare value.bare Span.zero
  | defined name _ => defined name Span.zero

/-- A field without its places. -/
def Field.bare (f : Field) : Field := { f with type := f.type.bare, span := Span.zero }

/-- A definition without its places. -/
def Definition.bare (d : Definition) : Definition := { d with span := Span.zero, fields := d.fields.map Field.bare }

/-- A schema without its places. -/
def Schema.bare (s : Schema) : Schema := { s with definitions := s.definitions.map Definition.bare }

/-- A token without its place. -/
def Token.bare (t : Token) : Token := { t with span := Span.zero }

/-- A use of a name without its place. -/
def Reference.bare (r : Reference) : Reference := { r with span := Span.zero }

/-- A problem without the places that it is about. -/
def Diagnostic.bare : Diagnostic → Diagnostic
  | unreadable fault => unreadable fault
  | lexical problem _ => lexical problem Span.zero
  | unexpectedToken expected actual hint => unexpectedToken expected actual.bare hint
  | unknownAttribute keyword token => unknownAttribute keyword token.bare
  | reservedIdentifier name _ => reservedIdentifier name Span.zero
  | invalidMapKey key => invalidMapKey key.bare
  | multipleDefinitions name _ => multipleDefinitions name Span.zero
  | unrecognizedType name usedIn _ => unrecognizedType name usedIn Span.zero
  | invalidNumber lexeme _ => invalidNumber lexeme Span.zero
  | invalidAttribute keyword reason definition _ => invalidAttribute keyword reason definition Span.zero
  | missingEndOfFile => missingEndOfFile

/-! ## Changes of places -/

theorem Token.relocate_forget (t : Token) : t.relocate .forget = t.bare := rfl

theorem FieldType.relocate_forget (t : FieldType) : t.relocate .forget = t.bare := by
  induction t with
  | scalar | defined => rfl
  | array element span display ih =>
    rw [relocate, ih]
    rfl
  | map key value span ihk ihv =>
    rw [relocate, ihk, ihv]
    rfl

theorem Field.relocate_forget (f : Field) : f.relocate .forget = f.bare := by
  rw [relocate, FieldType.relocate_forget]
  rfl

theorem Definition.relocate_forget (d : Definition) : d.relocate .forget = d.bare := by
  rw [relocate, funext Field.relocate_forget]
  rfl

theorem Diagnostic.relocate_forget (problem : Diagnostic) : problem.relocate .forget = problem.bare := by
  cases problem with
  | invalidMapKey key => rw [relocate, FieldType.relocate_forget, bare]
  | _ => rfl

/-! ## What is no place -/

/-- Two lists of tokens that say the same are the same without places. -/
theorem Token.map_bare_congr {ts us : List Token} (h : ts.map content = us.map content) :
    ts.map bare = us.map bare := by
  have hbare (vs : List Token) : vs.map bare = (vs.map content).map fun c => ⟨c.1, c.2, Span.zero⟩ := by
    rw [List.map_map]
    rfl
  rw [hbare, hbare, h]

theorem FieldType.display_bare (t : FieldType) : t.bare.display = t.display := by
  rw [← relocate_forget, display_relocate]

/-- Types use the same names without places. -/
theorem FieldType.leaves_bare (t : FieldType) : t.bare.leaves = t.leaves.map fun leaf => (leaf.1, Span.zero) := by
  rw [← relocate_forget, leaves_relocate]
  rfl

theorem FieldType.definedNames_bare (t : FieldType) : t.bare.definedNames = t.definedNames := by
  rw [definedNames, definedNames, leaves_bare, List.map_map]
  rfl

/-- The names used in a definition are no places. -/
theorem Definition.map_name_references_bare (d : Definition) :
    d.bare.references.map Reference.name = d.references.map Reference.name := by
  have hf (f : Field) : f.bare.type.definedNames = f.type.definedNames := f.type.definedNames_bare
  simp only [references, bare, List.flatMap_map, List.map_flatMap, FieldType.map_name_references, hf]

end SchemaLang
