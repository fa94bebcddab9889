import SchemaLang.Proofs.Grammar.Schema

/-!
# Repeated and missing names

What is said of a list of definitions, each of which is well-formed by itself, if their names do not fit together.

* A repeated name ends the reading, at the first definition with an earlier name, whatever is missing
  (`Schema.ofTokens_of_repeated`).
* Otherwise all definitions are read, and the first type name that no definition has is refused
  (`Schema.ofTokens_of_unresolved`). `Schema.uses` lists the type names in the order of the tokens.
* So the definitions are a schema exactly if there is neither (`Schema.ofTokens_eq_ok_iff_of_definitions`).
* Main result: `Schema.ofTokens_of_definitions`. It makes no difference whether a name is defined before or after its
  uses.
-/

namespace SchemaLang

/-! ## The first repetition -/

/-- A list that repeats a key has a first element with the key of an earlier one. -/
theorem exists_first_repeated {α κ : Type} [DecidableEq κ] (key : α → κ) : ∀ (before rest : List α),
    (before.map key).Nodup → ¬ ((before ++ rest).map key).Nodup →
      ∃ (us : List α) (a : α) (vs : List α), before ++ rest = us ++ a :: vs ∧ (us.map key).Nodup ∧ key a ∈ us.map key
  | before, [], hb, hn => by simp [hb] at hn
  | before, a :: rest, hb, hn => by
    by_cases ha : key a ∈ before.map key
    · exact ⟨before, a, rest, rfl, hb, ha⟩
    · have hb' : ((before ++ [a]).map key).Nodup := by
        rw [List.map_append]
        exact List.nodup_append.2 ⟨hb, by simp, by simpa using ha⟩
      have h := exists_first_repeated key (before ++ [a]) rest hb' (by simpa using hn)
      simpa using h

/-- A list with an element of a property has a first one. -/
theorem exists_first {α : Type} {p : α → Prop} [DecidablePred p] {as : List α} (h : ∃ a ∈ as, p a) :
    ∃ us a vs, as = us ++ a :: vs ∧ (∀ u ∈ us, ¬ p u) ∧ p a := by
  obtain ⟨a, ha⟩ : ∃ a, as.find? p = some a := Option.isSome_iff_exists.1 (List.find?_isSome.2 (by simpa using h))
  obtain ⟨hp, us, vs, rfl, hu⟩ := List.find?_eq_some_iff_append.1 ha
  exact ⟨us, a, vs, rfl, by simpa using hu, by simpa using hp⟩

namespace Schema

/-- The tokens that name a definition, each with the definition in which it stands. -/
def uses (ds : List Definition.Derivation) : List (Token × Definition.Derivation) :=
  ds.flatMap fun d => d.typeNames.map fun t => (t, d)

/-- The uses stand in the order of the tokens. -/
theorem uses_sublist (ds : List Definition.Derivation) :
    ((uses ds).map Prod.fst).Sublist (ds.flatMap Definition.Derivation.tokens) := by
  induction ds with
  | nil => exact .slnil
  | cons d ds ih =>
    have hd : (d.typeNames.map fun t => (t, d)).map Prod.fst = d.typeNames := by simp [Function.comp_def]
    rw [uses, List.flatMap_cons, List.map_append, hd, List.flatMap_cons]
    exact d.typeNames_sublist.append ih

/-- The references in derived definitions are the uses. -/
theorem references_definitions (ds : List Definition.Derivation) :
    (ds.map Definition.Derivation.definition).flatMap Definition.references =
      (uses ds).map fun u => ⟨u.1.lexeme, u.2.definition.name, u.1.span⟩ := by
  simp only [uses, List.flatMap_map, List.map_flatMap, Definition.Derivation.references_definition, List.map_map]
  rfl

end Schema

/-! ## One outcome for each case -/

section Outcomes

variable {ds : List Definition.Derivation}

/-- The first definition with an earlier name ends the reading. -/
theorem Progress.upTo_of_repeated {us vs : List Definition.Derivation} {d : Definition.Derivation} {n : Nat}
    {ts : List Token} (hn : us.length < n) (hu : (Definition.Derivation.names us).Nodup)
    (hd : d.definition.name ∈ Definition.Derivation.names us) :
    (upTo n [] ((us ++ d :: vs).flatMap Definition.Derivation.tokens ++ ts)).problem =
      some (.multipleDefinitions d.definition.name d.name.token.span) := by
  obtain ⟨m, rfl⟩ : ∃ m, n = m + 1 + us.length := ⟨n - us.length - 1, by omega⟩
  rw [← Definition.Derivation.map_name_definition] at hd
  rw [List.flatMap_append, List.flatMap_cons, List.append_assoc, List.append_assoc,
    upTo_definitions _ _ _ _ (by simpa using hu), List.nil_append, upTo_definition, if_pos hd]

/-- The first reference to a name that is not defined is refused. -/
theorem Reference.resolve_append {names : List String} {us vs : List Reference} {r : Reference}
    (hu : ∀ u ∈ us, u.name ∈ names) (hr : r.name ∉ names) :
    resolve names (us ++ r :: vs) = .error r.unrecognized := by
  have hf : (us ++ r :: vs).find? (fun u => !names.contains u.name) = some r :=
    List.find?_eq_some_iff_append.2 ⟨by simpa using hr, us, vs, rfl, by simpa using hu⟩
  rw [resolve, hf]

theorem Definition.resolve_of_unresolved {us vs : List (Token × Definition.Derivation)} {t : Token}
    {d : Definition.Derivation} (h : Schema.uses ds = us ++ (t, d) :: vs)
    (hu : ∀ u ∈ us, u.1.lexeme ∈ Definition.Derivation.names ds)
    (ht : t.lexeme ∉ Definition.Derivation.names ds) :
    resolve (ds.map Derivation.definition) = .error (.unrecognizedType t.lexeme d.definition.name t.span) := by
  rw [resolve, Derivation.map_name_definition, Schema.references_definitions, h, List.map_append, List.map_cons]
  refine Reference.resolve_append ?_ ht
  intro r hr
  obtain ⟨u, hm, rfl⟩ := List.mem_map.1 hr
  exact hu u hm

namespace Schema

variable {cs : Comments} {tokens : List Token}

/-- A repeated name ends the reading, whatever else is wrong. -/
theorem ofTokens_of_repeated {us vs : List Definition.Derivation} {d : Definition.Derivation}
    (h : Token.beforeEnd tokens = (us ++ d :: vs).flatMap Definition.Derivation.tokens ++ cs.tokens) (ns : String)
    (hu : (Definition.Derivation.names us).Nodup) (hd : d.definition.name ∈ Definition.Derivation.names us) :
    ofTokens tokens ns = .error (.multipleDefinitions d.name.token.lexeme d.name.token.span) := by
  obtain ⟨n, e, rest, hp⟩ := exists_upTo h ns
  have hlen : us.length < n + 1 + (us ++ d :: vs).length := by
    rw [List.length_append]
    omega
  rw [hp, Progress.finish, Progress.upTo_of_repeated hlen hu hd]
  rfl

/-- The first type name that no definition has is refused, if no name is repeated. -/
theorem ofTokens_of_unresolved
    (h : Token.beforeEnd tokens = ds.flatMap Definition.Derivation.tokens ++ cs.tokens) (ns : String)
    (hn : (Definition.Derivation.names ds).Nodup) {us vs : List (Token × Definition.Derivation)} {t : Token}
    {d : Definition.Derivation} (hs : uses ds = us ++ (t, d) :: vs)
    (hu : ∀ u ∈ us, u.1.lexeme ∈ Definition.Derivation.names ds)
    (ht : t.lexeme ∉ Definition.Derivation.names ds) :
    ofTokens tokens ns = .error (.unrecognizedType t.lexeme d.name.token.lexeme t.span) := by
  rw [ofTokens_of_nodup h ns hn, Definition.resolve_of_unresolved hs hu ht]
  rfl

theorem ofTokens_of_resolved
    (h : Token.beforeEnd tokens = ds.flatMap Definition.Derivation.tokens ++ cs.tokens) (ns : String)
    (hn : (Definition.Derivation.names ds).Nodup)
    (hu : ∀ u ∈ uses ds, u.1.lexeme ∈ Definition.Derivation.names ds) :
    ofTokens tokens ns = .ok ⟨ns, ds.map Definition.Derivation.definition⟩ := by
  have hr : Definition.resolve (ds.map Definition.Derivation.definition) = .ok () := by
    refine resolve_definitions_iff.2 fun d hd t ht => ?_
    exact hu (t, d) (List.mem_flatMap.2 ⟨d, hd, List.mem_map.2 ⟨t, ht, rfl⟩⟩)
  rw [ofTokens_of_nodup h ns hn, hr]
  rfl

/-- Definitions that are well-formed one by one are a schema exactly if their names are different and include all type
names. -/
theorem ofTokens_eq_ok_iff_of_definitions
    (h : Token.beforeEnd tokens = ds.flatMap Definition.Derivation.tokens ++ cs.tokens) {ns : String} {s : Schema} :
    ofTokens tokens ns = .ok s ↔ (Definition.Derivation.names ds).Nodup ∧
      Definition.resolve (ds.map Definition.Derivation.definition) = .ok () ∧
        s = ⟨ns, ds.map Definition.Derivation.definition⟩ := by
  by_cases hn : (Definition.Derivation.names ds).Nodup
  · rw [ofTokens_of_nodup h ns hn]
    cases Definition.resolve (ds.map Definition.Derivation.definition) <;> simp [hn, Except.map, eq_comm]
  · obtain ⟨us, d, vs, rfl, hu, hd⟩ :=
      exists_first_repeated (fun d : Definition.Derivation => d.definition.name) [] ds (by simp) hn
    simp [hn, ofTokens_of_repeated h ns hu hd]

/-- A use of a name that is not defined has a first one. -/
theorem exists_first_unresolved {names : List String} {us : List (Token × Definition.Derivation)}
    (h : ∃ u ∈ us, u.1.lexeme ∉ names) : ∃ before t d after, us = before ++ (t, d) :: after ∧
      (∀ u ∈ before, u.1.lexeme ∈ names) ∧ t.lexeme ∉ names := by
  obtain ⟨before, u, after, rfl, hb, hn⟩ := exists_first h
  exact ⟨before, u.1, u.2, after, rfl, fun b hm => not_not.1 (hb b hm), hn⟩

end Schema

end Outcomes

/-! ## The two phases -/

/-- Definitions that are well-formed one by one are read up to the first repeated name. If no name is repeated, the
first type name that is not defined is refused; `uses` lists the type names in the order of the tokens. If there is
none either, the definitions are the schema. -/
theorem Schema.ofTokens_of_definitions {ds : List Definition.Derivation} {cs : Comments} {tokens : List Token}
    (h : Token.beforeEnd tokens = ds.flatMap Definition.Derivation.tokens ++ cs.tokens) (ns : String) :
    (¬ (Definition.Derivation.names ds).Nodup →
      ∃ us d vs, ds = us ++ d :: vs ∧ (Definition.Derivation.names us).Nodup ∧
        d.definition.name ∈ Definition.Derivation.names us ∧
        ofTokens tokens ns = .error (.multipleDefinitions d.name.token.lexeme d.name.token.span)) ∧
    ((Definition.Derivation.names ds).Nodup →
      (∃ u ∈ uses ds, u.1.lexeme ∉ Definition.Derivation.names ds) →
      ∃ us t d vs, uses ds = us ++ (t, d) :: vs ∧
        (∀ u ∈ us, u.1.lexeme ∈ Definition.Derivation.names ds) ∧
        t.lexeme ∉ Definition.Derivation.names ds ∧
        ofTokens tokens ns = .error (.unrecognizedType t.lexeme d.name.token.lexeme t.span)) ∧
    ((Definition.Derivation.names ds).Nodup →
      (∀ u ∈ uses ds, u.1.lexeme ∈ Definition.Derivation.names ds) →
      ofTokens tokens ns = .ok ⟨ns, ds.map Definition.Derivation.definition⟩) ∧
    ((uses ds).map Prod.fst).Sublist tokens := by
  refine ⟨?_, ?_, ?_, ?_⟩
  · intro hn
    have hrepeated := exists_first_repeated (fun d : Definition.Derivation => d.definition.name) [] ds (by simp) hn
    obtain ⟨us, d, vs, rfl, hu, hd⟩ := hrepeated
    exact ⟨us, d, vs, rfl, hu, hd, ofTokens_of_repeated h ns hu hd⟩
  · intro hn hu
    obtain ⟨us, t, d, vs, hs, hr, ht⟩ := exists_first_unresolved hu
    exact ⟨us, t, d, vs, hs, hr, ht, ofTokens_of_unresolved h ns hn hs hr ht⟩
  · intro hn hu
    exact ofTokens_of_resolved h ns hn hu
  · have hd : ((uses ds).map Prod.fst).Sublist (Token.beforeEnd tokens) :=
      h ▸ (uses_sublist ds).trans (List.sublist_append_left _ _)
    exact hd.trans (List.takeWhile_sublist _)

/-- A token of a kind that has no place. -/
def TokenOf.placeless (kind : TokenKind) (lexeme : String) : TokenOf kind := ⟨⟨kind, lexeme, Span.zero⟩, rfl⟩

/-- The derivation of a struct with one field of a given type. -/
def Definition.Derivation.ofNames (name type : String) : Derivation where
  comments := Comments.none
  remarks := []
  modifier := none
  kind := .struct
  word := .placeless .struct "struct"
  name := (TokenOf.placeless .identifier name).uncommented
  opening := (TokenOf.placeless .openBrace "\x7b").uncommented
  fields := [{
    comments := Comments.none
    remark := none
    body := .struct (.name (TokenOf.placeless .identifier type).uncommented)
      ⟨(TokenOf.placeless .identifier "x").uncommented, by decide⟩
    closing := (TokenOf.placeless .semicolon ";").uncommented
    maximal := by
      rintro - t ht
      obtain rfl := Option.some.inj ht
      rfl }]
  closing := (TokenOf.placeless .closeBrace "\x7d").uncommented

/-- A repeated name is reported although no type name is defined. -/
theorem Schema.ofTokens_of_repeated_struct :
    let ds := [Definition.Derivation.ofNames "A" "B", Definition.Derivation.ofNames "A" "C"]
    ∃ d ∈ ds, ofTokens (ds.flatMap Definition.Derivation.tokens) "N" =
      .error (.multipleDefinitions d.name.token.lexeme d.name.token.span) := by
  intro ds
  have ht : Token.beforeEnd (ds.flatMap Definition.Derivation.tokens) =
      ds.flatMap Definition.Derivation.tokens ++ Comments.none.tokens := by decide
  obtain ⟨us, d, vs, hd, _, _, h⟩ := (ofTokens_of_definitions ht "N").1 (by decide)
  exact ⟨d, by simp [hd], h⟩

end SchemaLang
