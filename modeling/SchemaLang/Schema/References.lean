import SchemaLang.Diagnostic
import SchemaLang.Schema.Basic

/-!
# References

The uses of defined names as types, and the check that every name is defined.

* `Definition.references` lists the uses inside a definition in the order in which they are written.
* `Reference.resolve` fails at the first use of a name that is not defined, and succeeds if there is none
  (`Reference.resolve_eq_ok_iff`). The order of the definitions does not matter for that.
-/

namespace SchemaLang

/-- The use of a name as a type, inside a definition. -/
structure Reference where
  name : String
  /-- The name of the definition. -/
  usedIn : String
  span : Span
  deriving DecidableEq

/-- The uses of names in a type that stands in the definition of a name, in the order of the text. -/
def FieldType.references (t : FieldType) (definition : String) : List Reference :=
  t.leaves.map fun leaf => ⟨leaf.1, definition, leaf.2⟩

theorem FieldType.map_name_references (t : FieldType) (definition : String) :
    (t.references definition).map Reference.name = t.definedNames := by
  rw [references, definedNames, List.map_map]
  rfl

/-- The uses of names as types in a definition, in the order of the text. -/
def Definition.references (d : Definition) : List Reference := d.fields.flatMap fun f => f.type.references d.name

namespace Reference

/-- The diagnostic for a use of a name that is not defined. -/
def unrecognized (r : Reference) : Diagnostic := .unrecognizedType r.name r.usedIn r.span

/-- Check that the names of all references are among the defined ones. -/
def resolve (names : List String) (references : List Reference) : Except Diagnostic Unit :=
  match references.find? fun r => !names.contains r.name with
  | some r => .error r.unrecognized
  | none => .ok ()

/-- All names resolve exactly if each is defined. -/
theorem resolve_eq_ok_iff {names : List String} {references : List Reference} :
    resolve names references = .ok () ↔ ∀ r ∈ references, r.name ∈ names := by
  unfold resolve
  split
  · rename_i r h
    have hr := List.find?_some h
    have hm := List.mem_of_find?_eq_some h
    simp only [Bool.not_eq_eq_eq_not, Bool.not_true, List.contains_eq_mem, decide_eq_false_iff_not] at hr
    simp only [reduceCtorEq, false_iff]
    exact fun hall => hr (hall r hm)
  · rename_i h
    simpa using h

end Reference

/-- Check that every name used as a type in one of the definitions is the name of one. -/
def Definition.resolve (definitions : List Definition) : Except Diagnostic Unit :=
  Reference.resolve (definitions.map Definition.name) (definitions.flatMap Definition.references)

end SchemaLang
