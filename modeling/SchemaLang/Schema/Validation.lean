import SchemaLang.Diagnostic
import SchemaLang.Schema.Basic

/-!
# Validation of attributes

* `Definition.remarks` lists the attributes of a definition: its own, then those that deprecate its fields.
* `Definition.validate` fails at the first attribute with an invalid payload, definition by definition, and succeeds if
  all payloads are valid (`Definition.validate_eq_ok_iff`). It changes nothing.
-/

namespace SchemaLang

namespace Definition

/-- The attributes of a definition and then those of its fields. -/
def remarks (d : Definition) : List Attribute := d.attributes ++ d.fields.filterMap Field.deprecated

/-- The diagnostic for the first attribute of a definition with an invalid payload. -/
def invalidAttribute? (d : Definition) : Option Diagnostic :=
  d.remarks.findSome? fun a => a.invalid?.map fun reason => .invalidAttribute a.keyword reason d.name d.span

/-- Check the payloads of all attributes. -/
def validate (definitions : List Definition) : Except Diagnostic Unit :=
  match definitions.findSome? invalidAttribute? with
  | some problem => .error problem
  | none => .ok ()

/-- Validation succeeds exactly if no attribute has an invalid payload. -/
theorem validate_eq_ok_iff {definitions : List Definition} :
    validate definitions = .ok () ↔ ∀ d ∈ definitions, ∀ a ∈ d.remarks, a.invalid? = none := by
  unfold validate
  split
  · rename_i problem h
    obtain ⟨d, hd, hp⟩ := List.exists_of_findSome?_eq_some h
    obtain ⟨a, ha, hi⟩ := List.exists_of_findSome?_eq_some hp
    obtain ⟨reason, hr, _⟩ := Option.map_eq_some_iff.1 hi
    simp only [reduceCtorEq, false_iff]
    intro hall
    rw [hall d hd a ha] at hr
    cases hr
  · rename_i h
    simpa [invalidAttribute?, List.findSome?_eq_none_iff] using h

end Definition

end SchemaLang
