import SchemaLang.Schema.References

/-!
# Other places

* `Relocation` is a change of places that commutes with covering two spans. `Relocation.forget` takes all places away,
  `Relocation.toSource` moves everything into the source with a number.
* `relocate` is a token, a type, a field, a definition or a problem with its places changed. Nothing else of it changes.
-/

namespace SchemaLang

/-- A change of places. The span that covers two spans becomes the one that covers what the two become. -/
structure Relocation where
  move : Span → Span
  move_combine : ∀ a b : Span, move (a.combine b) = (move a).combine (move b)

namespace Relocation

/-- Take all places away. -/
def forget : Relocation := ⟨fun _ => Span.zero, fun _ _ => rfl⟩

/-- Move everything into the source with a number, to the same positions. -/
def toSource (file : Nat) : Relocation := ⟨fun s => { s with file := file }, fun _ _ => rfl⟩

end Relocation

variable (r : Relocation)

/-- A token at another place. -/
def Token.relocate (t : Token) : Token := { t with span := r.move t.span }

/-- A type at other places. -/
def FieldType.relocate : FieldType → FieldType
  | scalar base span => scalar base (r.move span)
  | array element span display => array element.relocate (r.move span) display
  | map key value span => map key.relocate value.relocate (r.move span)
  | defined name span => defined name (r.move span)

/-- A field at other places. -/
def Field.relocate (f : Field) : Field := { f with type := f.type.relocate r, span := r.move f.span }

/-- A definition at other places. -/
def Definition.relocate (d : Definition) : Definition :=
  { d with span := r.move d.span, fields := d.fields.map (Field.relocate r) }

/-- A problem that is about other places. -/
def Diagnostic.relocate : Diagnostic → Diagnostic
  | unreadable fault => unreadable fault
  | lexical problem span => lexical problem (r.move span)
  | unexpectedToken expected actual hint => unexpectedToken expected (actual.relocate r) hint
  | unknownAttribute keyword token => unknownAttribute keyword (token.relocate r)
  | reservedIdentifier name span => reservedIdentifier name (r.move span)
  | invalidMapKey key => invalidMapKey (key.relocate r)
  | multipleDefinitions name span => multipleDefinitions name (r.move span)
  | unrecognizedType name usedIn span => unrecognizedType name usedIn (r.move span)
  | invalidNumber lexeme span => invalidNumber lexeme (r.move span)
  | invalidAttribute keyword reason definition span => invalidAttribute keyword reason definition (r.move span)
  | missingEndOfFile => missingEndOfFile

namespace FieldType

theorem display_relocate (t : FieldType) : (t.relocate r).display = t.display := by
  induction t with
  | scalar | array | defined => rfl
  | map key value span ihk ihv => simp only [relocate, display, ihk, ihv]

theorem isScalar_relocate (t : FieldType) : (t.relocate r).isScalar = t.isScalar := by cases t <;> rfl

theorem span_relocate (t : FieldType) : (t.relocate r).span = r.move t.span := by cases t <;> rfl

theorem arrayOf_relocate (t : FieldType) (span : Span) :
    (t.relocate r).arrayOf (r.move span) = (t.arrayOf span).relocate r := by
  simp [arrayOf, relocate, display_relocate]

/-- Types use the same names at other places. -/
theorem leaves_relocate (t : FieldType) : (t.relocate r).leaves = t.leaves.map fun leaf => (leaf.1, r.move leaf.2) := by
  induction t with
  | scalar | defined => rfl
  | array element span display ih => exact ih
  | map key value span ihk ihv => rw [relocate, leaves, leaves, List.map_append, ihk, ihv]

end FieldType

end SchemaLang
