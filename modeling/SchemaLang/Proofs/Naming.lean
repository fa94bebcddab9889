import SchemaLang.Proofs.Lexemes

/-!
# Names as types

What the name of a definition means where it is written as a type.

* A place inside a type is a path of steps into arrays and maps (`FieldType.at?`). What is recorded at a place is the
  type of what is written there (`FieldType.Derivation.at?_type`).
* `FieldType.Derivation.Recorded` says what is recorded for the words in a type: the definition with that name, unless a
  built-in type has the name.
* Main result: `Schema.names_mean_definitions`.
* A definition can have the name of a built-in type. Then the name still means the built-in type
  (`Schema.captured_by_bool`).
-/

namespace SchemaLang

/-! ## Places inside a type -/

namespace FieldType

/-- A step from a type to one right inside it. -/
inductive Step where
  | element
  | key
  | value
  deriving DecidableEq

/-- The type one step inside a type. -/
def inside? : FieldType → Step → Option FieldType
  | array element _ _, .element => some element
  | map key _ _, .key => some key
  | map _ value _, .value => some value
  | _, _ => none

/-- The type at a place inside a type. -/
def at? (t : FieldType) (path : List Step) : Option FieldType := path.foldlM inside? t

namespace Derivation

/-- What is written one step inside a type. -/
def inside? : Derivation → Step → Option Derivation
  | array _ _ element _, .element => some element
  | suffix element _, .element => some element
  | map _ _ key _ _ _, .key => some (name key.toCommented)
  | map _ _ _ _ value _, .value => some value
  | _, _ => none

/-- What is written at a place inside a type. -/
def at? (d : Derivation) (path : List Step) : Option Derivation := path.foldlM inside? d

/-- No type is inside one that a word stands for. -/
theorem inside?_ofName (word : Token) (step : Step) : (ofName word).inside? step = none := by
  rw [ofName]
  cases Scalar.ofName? word.lexeme <;> cases step <;> rfl

/-- One step inside, the type of what is written is recorded. -/
theorem inside?_type (d : Derivation) (step : Step) : d.type.inside? step = (d.inside? step).map type := by
  cases d with
  | name word => exact (inside?_ofName word.token step).trans (by cases step <;> rfl)
  | map word opening key comma value closing =>
    cases step with
    | key => exact congrArg some (type_key key).symm
    | element | value => rfl
  | array | suffix => cases step <;> rfl

/-- What is recorded at a place is the type of what is written there, by induction on the path. -/
theorem at?_type (d : Derivation) (path : List Step) : d.type.at? path = (d.at? path).map type := by
  induction path generalizing d with
  | nil => rfl
  | cons step path ih =>
    simp only [FieldType.at?, at?, List.foldlM_cons, inside?_type] at ih ⊢
    cases d.inside? step with
    | none => rfl
    | some e => exact ih e

/-- What is written one step inside a type is part of it, with the definitions that it names. -/
theorem part_of_inside? {d e : Derivation} {step : Step} (h : d.inside? step = some e) :
    e.tokens <:+: d.tokens ∧ e.typeNames ⊆ d.typeNames := by
  cases d with
  | name => cases step <;> cases h
  | map word opening key comma value closing =>
    cases step with
    | element => cases h
    | key =>
      obtain rfl := Option.some.inj h
      have hkey : (name key.toCommented).typeNames = [] := by
        rw [typeNames, Scalar.ofName?_eq_some_iff.2 key.name_eq]
        rfl
      refine ⟨⟨word.tokens ++ opening.tokens, comma.tokens ++ value.tokens ++ closing.tokens, by simp [tokens]⟩, ?_⟩
      rw [hkey]
      exact List.nil_subset _
    | value =>
      obtain rfl := Option.some.inj h
      exact ⟨⟨word.tokens ++ opening.tokens ++ key.tokens ++ comma.tokens, closing.tokens, rfl⟩, List.Subset.refl _⟩
  | array word opening element closing =>
    cases step with
    | element =>
      obtain rfl := Option.some.inj h
      exact ⟨⟨word.tokens ++ opening.tokens, closing.tokens, rfl⟩, List.Subset.refl _⟩
    | key | value => cases h
  | suffix element brackets =>
    cases step with
    | element =>
      obtain rfl := Option.some.inj h
      exact ⟨(List.prefix_append _ _).isInfix, List.Subset.refl _⟩
    | key | value => cases h

/-- What is written at a place is part of the type, by induction on the path. -/
theorem part_of_at? {d e : Derivation} {path : List Step} (h : d.at? path = some e) :
    e.tokens <:+: d.tokens ∧ e.typeNames ⊆ d.typeNames := by
  induction path generalizing d with
  | nil =>
    obtain rfl := Option.some.inj h
    exact ⟨List.infix_rfl, List.Subset.refl _⟩
  | cons step path ih =>
    obtain ⟨f, hf, he⟩ := Option.bind_eq_some_iff.1 h
    obtain ⟨htokens, hnames⟩ := part_of_inside? hf
    obtain ⟨htokens', hnames'⟩ := ih he
    exact ⟨htokens'.trans htokens, List.Subset.trans hnames' hnames⟩

/-! ## What is recorded for a word -/

/-- Only a word is recorded as a definition, and no name of a built-in type is. -/
theorem exists_of_type_eq_defined {d : Derivation} {n : String} {span : Span} (h : d.type = .defined n span) :
    ∃ word : Commented .identifier, d = name word ∧ word.token.lexeme = n ∧
      Scalar.ofName? n = none ∧ word.token ∈ d.typeNames := by
  cases d with
  | name word =>
    rw [type, ofName] at h
    cases hs : Scalar.ofName? word.token.lexeme with
    | some base => simp [hs] at h
    | none =>
      obtain ⟨rfl, rfl⟩ : word.token.lexeme = n ∧ word.token.span = span := by simpa [hs] using h
      exact ⟨word, rfl, rfl, hs, by simp [typeNames, hs]⟩
  | map | array | suffix => cases h

/-- A type of a text as it is recorded, in a schema with definitions of certain names. A word that is written in it
stands for the definition with that name, or for the built-in type with that name if there is one. No other definitions
are recorded. -/
structure Recorded (d : Derivation) (text : String) (names : List String) (t : FieldType) : Prop where
  written : ∀ path word, d.at? path = some (name word) →
    word.token.span.Covers text.toList word.token.lexeme.toList
  defined : ∀ path word, d.at? path = some (name word) → word.token.lexeme ∈ names →
    Scalar.ofName? word.token.lexeme = none → t.at? path = some (.defined word.token.lexeme word.token.span)
  scalar : ∀ path word base, d.at? path = some (name word) → Scalar.ofName? word.token.lexeme = some base →
    t.at? path = some (.scalar base word.token.span)
  only : ∀ path n span, t.at? path = some (.defined n span) → n ∈ names ∧ Scalar.ofName? n = none

/-- A type of a text, in which no other definitions are named, is recorded as it is written. -/
theorem recorded {d : Derivation} {text : String} {tokens : List Token} {names : List String}
    (h : Token.ofText text 0 = .ok tokens) (hd : d.tokens ⊆ tokens) (hn : ∀ t ∈ d.typeNames, t.lexeme ∈ names) :
    d.Recorded text names d.type where
  written path word hw := by
    have hmem := hd ((part_of_at? hw).1.subset word.token_mem)
    exact Token.covers_lexeme h hmem (by rw [word.kind_eq]; rfl)
  defined path word hw _ hs := by
    rw [at?_type, hw, Option.map_some, type, ofName, hs]
  scalar path word base hw hs := by
    rw [at?_type, hw, Option.map_some, type, ofName, hs]
  only path n span ht := by
    rw [at?_type] at ht
    obtain ⟨e, he, htype⟩ := Option.map_eq_some_iff.1 ht
    obtain ⟨word, rfl, rfl, hs, hmem⟩ := exists_of_type_eq_defined htype
    exact ⟨hn _ ((part_of_at? he).2 hmem), hs⟩

end Derivation

end FieldType

/-! ## Schemas -/

/-- The type that is written in a field. The constants of an enum have none. -/
def Field.Body.written? {kind : DefinitionKind} : Field.Body kind → Option FieldType.Derivation
  | .enum _ _ _ => none
  | .struct type _ => some type
  | .message _ _ _ type _ => some type

/-- A type that is written in a field is that of the field. -/
theorem Field.Body.of_written? {kind : DefinitionKind} {b : Body kind} {d : FieldType.Derivation}
    (h : b.written? = some d) (owner : Token) : b.type owner = d.type ∧ d.tokens ⊆ b.tokens ∧
      b.typeNames = d.typeNames := by
  cases b with
  | enum => cases h
  | struct type name =>
    obtain rfl := Option.some.inj h
    exact ⟨rfl, fun _ ht => by simp [tokens, ht], rfl⟩
  | message index hyphen greater type name =>
    obtain rfl := Option.some.inj h
    exact ⟨rfl, fun _ ht => by simp [tokens, ht], rfl⟩

namespace Schema

variable {text ns : String} {s : Schema}

/-- However the tokens of a text are derived, the schema is the derived one. -/
theorem eq_schema_of_tokens (h : ofText text ns = .ok s) {d : Derivation} (ht : Token.ofText text 0 = .ok d.tokens) :
    s = d.schema ns := by
  rw [ofText_eq ht, ofTokens_of_derivation d ns (Token.beforeEnd_append (fun _ => d.kind_ne_of_mem) rfl).symm] at h
  exact (Except.ok.inj h).symm

/-- In every schema of a text, wherever the name of a definition is written as a type, this definition is recorded,
unless a built-in type has the name. Then the built-in type is recorded, and no type refers to the definition. -/
theorem names_mean_definitions (h : ofText text ns = .ok s) : ∃ tokens, Token.ofText text 0 = .ok tokens ∧
    (∃ d : Derivation, d.tokens = tokens) ∧ ∀ d : Derivation, d.tokens = tokens → s = d.schema ns ∧
      ∀ e ∈ d.definitions, ∀ (j : Nat) f t, e.fields[j]? = some f → f.body.written? = some t →
        ∃ field, e.definition.fields[j]? = some field ∧
          t.Recorded text (s.definitions.map Definition.name) field.type := by
  obtain ⟨tokens, ht⟩ := exists_tokens_of_ofText h
  obtain ⟨d₀, hd₀, -⟩ := exists_derivation_of_ofText ht h
  refine ⟨tokens, ht, ⟨d₀, hd₀⟩, fun d hd => ?_⟩
  subst hd
  obtain rfl := eq_schema_of_tokens h ht
  refine ⟨rfl, fun e he j f t hf hw => ⟨f.field e.name.token, ?_, ?_⟩⟩
  · rw [Definition.Derivation.definition, List.getElem?_map, hf]
    rfl
  · obtain ⟨htype, htokens, hnames⟩ := Field.Body.of_written? hw e.name.token
    have hmem := List.mem_of_getElem? hf
    have hfield := (Definition.Derivation.field_infix_extent hmem).trans
      (e.extent_suffix.isInfix.trans (Derivation.infix_of_mem he))
    have hclosed : ∀ u ∈ t.typeNames, u.lexeme ∈ (d.schema ns).definitions.map Definition.name := fun u hu => by
      rw [d.names_schema]
      exact d.closed e he u (List.mem_flatMap.2 ⟨f, hmem, hnames ▸ hu⟩)
    rw [Field.Derivation.field, htype]
    exact FieldType.Derivation.recorded ht (fun _ hu => hfield.subset (f.body_infix.subset (htokens hu))) hclosed

/-- A name in a value of a map and in an array, next to a definition with the name of a built-in type. -/
theorem names_mean_definitions_nested :
    let text := "struct bool \x7b \x7d struct T \x7b map[bool, T[]] x; array[bool] y; \x7d"
    ∃ s, ofText text "N" = .ok s ∧ ∃ tokens, Token.ofText text 0 = .ok tokens ∧
      (∃ d : Derivation, d.tokens = tokens) ∧ ∀ d : Derivation, d.tokens = tokens → s = d.schema "N" ∧
        ∀ e ∈ d.definitions, ∀ (j : Nat) f t, e.fields[j]? = some f → f.body.written? = some t →
          ∃ field, e.definition.fields[j]? = some field ∧
            t.Recorded text (s.definitions.map Definition.name) field.type := by
  intro text
  obtain ⟨s, hs⟩ : ∃ s, ofText text "N" = .ok s := exists_of_isOk (by decide +kernel)
  exact ⟨s, hs, names_mean_definitions hs⟩

/-- The name of a definition is written as the type of a field, and the built-in type with that name is recorded. -/
theorem captured_by_bool :
    let text := "struct bool \x7b \x7d struct A \x7b bool x; \x7d"
    ∃ s d e f, ofText text "N" = .ok s ∧ d ∈ s.definitions ∧ e ∈ s.definitions ∧ f ∈ e.fields ∧
      f.type.span.Covers text.toList d.name.toList ∧ f.type = .scalar .bool f.type.span ∧
        ∀ span, f.type ≠ .defined d.name span := by
  intro text
  let place : Span := ⟨0, ⟨27, 1, 28⟩, ⟨31, 1, 32⟩⟩
  let f : Field := ⟨"x", .scalar .bool place, ⟨0, ⟨32, 1, 33⟩, ⟨34, 1, 35⟩⟩, none, 0, ""⟩
  let d : Definition := ⟨"bool", .struct, false, ⟨0, ⟨7, 1, 8⟩, ⟨15, 1, 16⟩⟩, "", [], []⟩
  let e : Definition := ⟨"A", .struct, false, ⟨0, ⟨23, 1, 24⟩, ⟨36, 1, 37⟩⟩, "", [], [f]⟩
  have hs : ofText text "N" = .ok ⟨"N", [d, e]⟩ := by decide +kernel
  have hcovers : place.Covers text.toList "bool".toList :=
    ⟨text.toList.take 27, text.toList.drop 31, by decide +kernel, by decide +kernel, by decide +kernel⟩
  exact ⟨_, d, e, f, hs, List.mem_cons_self, List.mem_cons_of_mem _ List.mem_cons_self, List.mem_cons_self, hcovers,
    rfl, fun span hdefined => by cases hdefined⟩

end Schema

end SchemaLang
