import SchemaLang.Evaluator
import SchemaLang.Proofs.Grammar.Schema

/-!
# Well-formed schemas

What may be relied on in every schema that is read.

* `FieldType.parts` are the types inside a type at all depths, and `FieldType.rendering` is the usual text of a type in
  terms of the texts of the types right inside it.
* `Field.WellFormed` says what holds of a field, given the names of all definitions and the kind of its own;
  `Schema.WellFormed` says it of all fields, and that the definitions are found by their names.
* Every derivation gives a well-formed schema (`Schema.Derivation.wellFormed`), so every evaluation that succeeds does,
  whatever its input and its past (`Evaluator.wellFormed_of_evaluate_eq_ok`).
-/

namespace SchemaLang

/-! ## Types -/

namespace FieldType

/-- The types inside a type at all depths, itself first. -/
def parts : FieldType → List FieldType
  | scalar base span => [scalar base span]
  | array element span display => array element span display :: element.parts
  | map key value span => map key value span :: (key.parts ++ value.parts)
  | defined name span => [defined name span]

/-- The usual text of a type, given the texts of the types right inside it. -/
def rendering : FieldType → String
  | scalar base _ => base.name
  | array element _ _ => element.display ++ "[]"
  | map key value _ => "map[" ++ key.display ++ ", " ++ value.display ++ "]"
  | defined name _ => name

namespace Derivation

/-- Every map in a derived type has a key that is built in. -/
theorem isScalar_key (d : Derivation) {key value : FieldType} {span : Span} (h : .map key value span ∈ d.type.parts) :
    key.isScalar = true := by
  induction d with
  | name word =>
    simp only [type, ofName] at h
    cases hs : Scalar.ofName? word.token.lexeme <;> simp [hs, parts] at h
  | map word opening k comma v closing ih =>
    simp only [type, Key.type, parts, List.mem_cons, List.mem_append, List.not_mem_nil, reduceCtorEq, or_false,
      false_or] at h
    rcases h with ⟨rfl, _, _⟩ | h
    · rfl
    · exact ih h
  | array word opening element closing ih => exact ih (by simpa [type, arrayOf, parts] using h)
  | suffix element brackets ih => exact ih (by simpa [type, arrayOf, parts] using h)

/-- Every type in a derived type has its usual text. -/
theorem display_eq_rendering (d : Derivation) {t : FieldType} (h : t ∈ d.type.parts) : t.display = t.rendering := by
  induction d with
  | name word =>
    simp only [type, ofName] at h
    cases hs : Scalar.ofName? word.token.lexeme with
    | none =>
      obtain rfl : t = _ := by simpa [hs, parts] using h
      rfl
    | some base =>
      obtain rfl : t = _ := by simpa [hs, parts] using h
      rfl
  | map word opening k comma v closing ih =>
    simp only [type, Key.type, parts, List.mem_cons, List.mem_append, List.not_mem_nil, or_false] at h
    rcases h with rfl | rfl | h
    · rfl
    · rfl
    · exact ih h
  | array word opening element closing ih =>
    simp only [type, arrayOf, parts, List.mem_cons] at h
    rcases h with rfl | h
    · rfl
    · exact ih h
  | suffix element brackets ih =>
    simp only [type, arrayOf, parts, List.mem_cons] at h
    rcases h with rfl | h
    · rfl
    · exact ih h

/-- The tokens that name a definition are spelled like no built-in type. -/
theorem ofName?_typeNames (d : Derivation) {t : Token} (h : t ∈ d.typeNames) : Scalar.ofName? t.lexeme = none := by
  induction d with
  | name word =>
    simp only [typeNames] at h
    split at h
    · simp at h
    · rename_i hs
      obtain rfl := List.mem_singleton.1 h
      simpa using hs
  | map word opening k comma v closing ih => exact ih h
  | array word opening element closing ih => exact ih h
  | suffix element brackets ih => exact ih h

end Derivation

end FieldType

/-! ## Fields -/

/-- A field that may stand in a definition of a kind, if the definitions of the schema have the given names. -/
structure Field.WellFormed (names : List String) (kind : DefinitionKind) (f : Field) : Prop where
  key_isScalar : ∀ key value span, .map key value span ∈ f.type.parts → key.isScalar = true
  display_eq : ∀ t ∈ f.type.parts, t.display = t.rendering
  defined_mem : ∀ name ∈ f.type.definedNames, name ∈ names
  defined_ne : ∀ name ∈ f.type.definedNames, ∀ base : Scalar, base.name ≠ name
  name_free : isKeyword f.name = false
  struct_value : kind = .struct → f.value = 0
  enum_type : kind = .enum → ∃ span, f.type = .scalar .uint32 span
  deprecated_eq : ∀ a ∈ f.deprecated, ∃ reason, a = .deprecated reason

namespace Field

theorem Body.parts_type {kind : DefinitionKind} (b : Body kind) (owner : Token) {t : FieldType}
    (h : t ∈ (b.type owner).parts) :
    t = .scalar .uint32 owner.span ∨ ∃ d : FieldType.Derivation, t ∈ d.type.parts := by
  cases b with
  | enum => exact .inl (List.mem_singleton.1 h)
  | struct type => exact .inr ⟨type, h⟩
  | message _ _ _ type => exact .inr ⟨type, h⟩

theorem Body.definedNames_type {kind : DefinitionKind} (b : Body kind) (owner : Token) :
    (b.type owner).definedNames = b.typeNames.map Token.lexeme := by
  rw [FieldType.definedNames, leaves_type, List.map_map]
  rfl

theorem Body.ofName?_typeNames {kind : DefinitionKind} (b : Body kind) {t : Token} (h : t ∈ b.typeNames) :
    Scalar.ofName? t.lexeme = none := by
  cases b with
  | enum => simp [typeNames] at h
  | struct type => exact type.ofName?_typeNames h
  | message _ _ _ type => exact type.ofName?_typeNames h

theorem Derivation.wellFormed {kind : DefinitionKind} (d : Derivation kind) (owner : Token) {names : List String}
    (h : ∀ t ∈ d.body.typeNames, t.lexeme ∈ names) : (d.field owner).WellFormed names kind where
  key_isScalar key value span hp := by
    rcases d.body.parts_type owner hp with he | ⟨e, he⟩
    · cases he
    · exact e.isScalar_key he
  display_eq t ht := by
    rcases d.body.parts_type owner ht with rfl | ⟨e, he⟩
    · rfl
    · exact e.display_eq_rendering he
  defined_mem name hn := by
    rw [field, Body.definedNames_type] at hn
    obtain ⟨t, ht, rfl⟩ := List.mem_map.1 hn
    exact h t ht
  defined_ne name hn base hb := by
    rw [field, Body.definedNames_type] at hn
    obtain ⟨t, ht, rfl⟩ := List.mem_map.1 hn
    have ho := d.body.ofName?_typeNames ht
    rw [Scalar.ofName?_eq_some_iff.2 hb] at ho
    cases ho
  name_free := d.body.name.free
  struct_value hk := by
    subst hk
    cases hb : d.body with
    | struct type name => rw [field, hb]; rfl
  enum_type hk := by
    subst hk
    cases hb : d.body with
    | enum name equals constant => exact ⟨owner.span, by rw [field, hb]; rfl⟩
  deprecated_eq a ha := by
    obtain ⟨_, hd⟩ := Option.filter_eq_some_iff.1 (Option.mem_def.1 ha)
    cases a with
    | deprecated reason => exact ⟨reason, rfl⟩
    | opcode | query | command | authorize => cases hd

end Field

/-! ## Schemas -/

namespace Schema

/-- A schema whose definitions are found by their names, with well-formed fields. -/
structure WellFormed (s : Schema) : Prop where
  names_nodup : (s.definitions.map Definition.name).Nodup
  definition?_eq_some_iff : ∀ name d, s.definition? name = some d ↔ d ∈ s.definitions ∧ d.name = name
  fields : ∀ d ∈ s.definitions, ∀ f ∈ d.fields, f.WellFormed (s.definitions.map Definition.name) d.kind

/-- Among definitions with different names each is found by its own. -/
theorem find?_eq_some_iff {ds : List Definition} (h : (ds.map Definition.name).Nodup) {name : String} {d : Definition} :
    Definition.find? ds name = some d ↔ d ∈ ds ∧ d.name = name := by
  constructor
  · intro hf
    exact ⟨List.mem_of_find?_eq_some hf, by simpa using List.find?_some hf⟩
  · rintro ⟨hd, rfl⟩
    induction ds with
    | nil => cases hd
    | cons e ds ih =>
      obtain ⟨he, hds⟩ := List.nodup_cons.1 h
      rw [Definition.find?, List.find?_cons]
      rcases List.mem_cons.1 hd with rfl | hd
      · simp
      · have hne : e.name ≠ d.name := fun hne => he (hne ▸ List.mem_map_of_mem hd)
        simpa [hne, Definition.find?] using ih hds hd

theorem Derivation.wellFormed (d : Derivation) (ns : String) : (d.schema ns).WellFormed := by
  have hn : ((d.schema ns).definitions.map Definition.name).Nodup := d.names_schema ns ▸ d.distinct
  refine ⟨hn, fun name e => find?_eq_some_iff hn, ?_⟩
  intro e' he' f' hf'
  obtain ⟨e, he, rfl⟩ := List.mem_map.1 he'
  obtain ⟨f, hf, rfl⟩ := List.mem_map.1 hf'
  refine f.wellFormed e.name.token fun t ht => ?_
  rw [d.names_schema]
  exact d.closed e he t (List.mem_flatMap.2 ⟨f, hf, ht⟩)

end Schema

/-! ## Evaluations -/

/-- Whatever an evaluator has read and done before, a schema that it gives is well-formed. -/
theorem Evaluator.wellFormed_of_evaluate_eq_ok {disk : Disk} {e : Evaluator} {s : Schema}
    (h : (e.evaluate disk).1 = .ok s) : s.WellFormed := by
  rw [evaluate_fst] at h
  obtain ⟨tokens, _, hread⟩ := exists_of_bind_eq_ok h
  obtain ⟨d, _, rfl⟩ := Schema.exists_derivation hread
  exact d.wellFormed e.ns

/-- The schema of a text with all kinds of definitions, whose types use each other. -/
theorem Evaluator.wellFormed_evaluate_text : ∃ s, ((Evaluator.new (.sources [.text
    "/* p */ [opcode(1)] struct A \x7b [deprecated('x')] map[string, B[]] m; \x7d enum B \x7b X = 1; \x7d
    message C \x7b 1 -> array[A] as; \x7d"]) "N").evaluate Disk.empty).1 = .ok s ∧ s.WellFormed := by
  refine (exists_of_isOk ?_).imp fun s hs => ⟨hs, wellFormed_of_evaluate_eq_ok hs⟩
  decide +kernel

end SchemaLang
