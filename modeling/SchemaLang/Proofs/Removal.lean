import Mathlib.Data.List.Basic
import SchemaLang.Proofs.Resolution
import SchemaLang.Proofs.WellFormed

/-!
# Definitions taken out

What is left of a schema if the tokens of one definition are deleted.

* `Definition.Mentions` says of a finished definition that a name stands in the type of a field. The tokens that name a
  definition give the names inside the types of its fields, in the same order
  (`Definition.Derivation.flatMap_definedNames`), so both views of the references agree.
* `Schema.Cut` is a token list that is cut around a definition. Each definition of a schema can be cut out
  (`Schema.exists_cut`).
* The other definitions have different names, and all their type names but that of the definition are still defined
  (`Schema.Cut.mem_names`).
* Main result: `Schema.ofTokens_without`. If no other definition mentions the name, the others are the schema; otherwise
  the first mention is refused.
-/

namespace SchemaLang

namespace Definition

/-- Whether a name stands inside the type of a field. -/
def Mentions (d : Definition) (name : String) : Prop := ∃ f ∈ d.fields, name ∈ f.type.definedNames

instance (d : Definition) (name : String) : Decidable (d.Mentions name) :=
  inferInstanceAs (Decidable (∃ f ∈ d.fields, name ∈ f.type.definedNames))

/-- The names inside the types of the fields are those of the tokens that name a definition, in the same order. -/
theorem Derivation.flatMap_definedNames (d : Derivation) :
    (d.definition.fields.flatMap fun f => f.type.definedNames) = d.typeNames.map Token.lexeme := by
  rw [definition, typeNames, List.flatMap_map, List.map_flatMap]
  exact List.flatMap_congr fun f _ => f.body.definedNames_type d.name.token

theorem Derivation.mentions_definition_iff {d : Derivation} {name : String} :
    d.definition.Mentions name ↔ ∃ t ∈ d.typeNames, t.lexeme = name := by
  rw [← List.mem_map, ← flatMap_definedNames, List.mem_flatMap]
  rfl

/-- Definitions stand in front of the end of the file. -/
theorem beforeEnd_flatMap (ds : List Derivation) (ts : List Token) :
    Token.beforeEnd (ds.flatMap Derivation.tokens ++ ts) = ds.flatMap Derivation.tokens ++ Token.beforeEnd ts := by
  refine List.takeWhile_append_of_pos fun t ht => ?_
  obtain ⟨d, _, hd⟩ := List.mem_flatMap.1 ht
  exact decide_eq_true (Derivation.kind_ne_of_mem hd)

end Definition

namespace Schema

variable {tokens : List Token} {ns : String} {s : Schema}

/-- A token list that is cut in front of a definition and behind it. The stretch of a definition goes from its first
comment to its closing brace. -/
structure Cut (tokens : List Token) where
  /-- The definitions in front. -/
  front : List Definition.Derivation
  removed : Definition.Derivation
  /-- The definitions behind. -/
  back : List Definition.Derivation
  /-- The tokens behind all definitions. -/
  rest : List Token
  /-- The comments behind all definitions. -/
  trailing : Comments
  tokens_eq : tokens = front.flatMap Definition.Derivation.tokens ++ (removed.tokens ++
    (back.flatMap Definition.Derivation.tokens ++ rest))
  beforeEnd_rest : Token.beforeEnd rest = trailing.tokens

namespace Cut

variable (c : Cut tokens)

/-- All definitions. -/
def definitions : List Definition.Derivation := c.front ++ c.removed :: c.back

/-- The other definitions. -/
def remaining : List Definition.Derivation := c.front ++ c.back

/-- The tokens without the stretch of the definition. -/
def without : List Token :=
  c.front.flatMap Definition.Derivation.tokens ++ (c.back.flatMap Definition.Derivation.tokens ++ c.rest)

/-- The name of the definition. -/
def name : String := c.removed.definition.name

theorem beforeEnd_tokens :
    Token.beforeEnd tokens = c.definitions.flatMap Definition.Derivation.tokens ++ c.trailing.tokens := by
  have ht : tokens = c.definitions.flatMap Definition.Derivation.tokens ++ c.rest :=
    c.tokens_eq.trans (by simp [definitions])
  rw [← c.beforeEnd_rest, ← Definition.beforeEnd_flatMap, ← ht]

theorem beforeEnd_without :
    Token.beforeEnd c.without = c.remaining.flatMap Definition.Derivation.tokens ++ c.trailing.tokens := by
  rw [← c.beforeEnd_rest, ← Definition.beforeEnd_flatMap, without, remaining, List.flatMap_append, List.append_assoc]

theorem remaining_sublist : c.remaining.Sublist c.definitions :=
  (List.sublist_cons_self _ _).append_left _

end Cut

/-- Each definition of a schema can be cut out. -/
theorem exists_cut (h : ofTokens tokens ns = .ok s) {d : Definition} (hd : d ∈ s.definitions) :
    ∃ c : Cut tokens, c.removed.definition = d := by
  obtain ⟨e, ht, rfl⟩ := exists_derivation h
  obtain ⟨r, hr, rfl⟩ := List.mem_map.1 hd
  obtain ⟨front, back, hds⟩ := List.append_of_mem hr
  let rest := e.trailing.tokens ++ tokens.dropWhile fun t => t.kind ≠ .endOfFile
  have htokens : tokens = e.definitions.flatMap Definition.Derivation.tokens ++ rest := by
    have hb : Token.beforeEnd tokens ++ _ = tokens := List.takeWhile_append_dropWhile
    rw [← hb, ← ht, Derivation.tokens, List.append_assoc]
  have hrest : Token.beforeEnd rest = e.trailing.tokens := by
    rw [htokens, Definition.beforeEnd_flatMap] at ht
    exact (List.append_cancel_left ht).symm
  exact ⟨⟨front, r, back, rest, e.trailing, htokens.trans (by simp [hds]), hrest⟩, rfl⟩

namespace Cut

variable (c : Cut tokens)

/-- A schema has the definitions of the cut. -/
theorem eq_definitions (h : ofTokens tokens ns = .ok s) :
    s = ⟨ns, c.definitions.map Definition.Derivation.definition⟩ :=
  ((ofTokens_eq_ok_iff_of_definitions c.beforeEnd_tokens).1 h).2.2

/-- The names of a schema without one of them are different, and the one is not among them. -/
theorem nodup_names (h : ofTokens tokens ns = .ok s) : (Definition.Derivation.names c.remaining).Nodup ∧
    c.name ∉ Definition.Derivation.names c.remaining := by
  have hn := ((ofTokens_eq_ok_iff_of_definitions c.beforeEnd_tokens).1 h).1
  have hp : c.definitions.Perm (c.removed :: c.remaining) := List.perm_middle
  have hn' : (Definition.Derivation.names (c.removed :: c.remaining)).Nodup := (hp.map _).nodup_iff.1 hn
  exact ⟨(List.nodup_cons.1 hn').2, (List.nodup_cons.1 hn').1⟩

/-- Every other type name of a schema is still the name of a definition. -/
theorem mem_names (h : ofTokens tokens ns = .ok s) {e : Definition.Derivation} (he : e ∈ c.remaining) {t : Token}
    (ht : t ∈ e.typeNames) (hne : t.lexeme ≠ c.name) : t.lexeme ∈ Definition.Derivation.names c.remaining := by
  have hr := ((ofTokens_eq_ok_iff_of_definitions c.beforeEnd_tokens).1 h).2.1
  have hm := resolve_definitions_iff.1 hr e (c.remaining_sublist.subset he) t ht
  obtain ⟨d, hd, hl⟩ := List.mem_map.1 hm
  rcases List.mem_append.1 hd with hd | hd
  · exact List.mem_map.2 ⟨d, List.mem_append_left _ hd, hl⟩
  · rcases List.mem_cons.1 hd with rfl | hd
    · exact absurd hl.symm hne
    · exact List.mem_map.2 ⟨d, List.mem_append_right _ hd, hl⟩

end Cut

/-- Without a definition that no other mentions, the others are the schema. -/
theorem ofTokens_without_unused (h : ofTokens tokens ns = .ok s) (c : Cut tokens)
    (hc : ∀ e ∈ c.remaining, ¬ e.definition.Mentions c.name) :
    ofTokens c.without ns = .ok ⟨ns, c.remaining.map Definition.Derivation.definition⟩ := by
  refine ofTokens_of_resolved c.beforeEnd_without ns (c.nodup_names h).1 fun u hu => ?_
  obtain ⟨e, he, hm⟩ := List.mem_flatMap.1 hu
  obtain ⟨t, ht, rfl⟩ := List.mem_map.1 hm
  exact c.mem_names h he ht fun hl => hc e he (Definition.Derivation.mentions_definition_iff.2 ⟨t, ht, hl⟩)

/-- Without a definition that others mention, the first mention in the first of these is refused. -/
theorem ofTokens_without_used (h : ofTokens tokens ns = .ok s) (c : Cut tokens) {es vs : List Definition.Derivation}
    {e : Definition.Derivation} (hr : c.remaining = es ++ e :: vs)
    (hes : ∀ d ∈ es, ¬ d.definition.Mentions c.name) {ts us : List Token} {t : Token}
    (he : e.typeNames = ts ++ t :: us) (hts : ∀ u ∈ ts, u.lexeme ≠ c.name) (ht : t.lexeme = c.name) :
    ofTokens c.without ns = .error (.unrecognizedType c.name e.definition.name t.span) := by
  obtain ⟨hn, hname⟩ := c.nodup_names h
  have hsplit : uses c.remaining = (uses es ++ ts.map fun u => (u, e)) ++
      (t, e) :: ((us.map fun u => (u, e)) ++ uses vs) := by
    simp [uses, hr, he]
  have hfirst : ∀ u ∈ uses es ++ ts.map fun u => (u, e),
      u.1.lexeme ∈ Definition.Derivation.names c.remaining := by
    intro u hu
    rcases List.mem_append.1 hu with hu | hu
    · obtain ⟨d, hd, hm⟩ := List.mem_flatMap.1 hu
      obtain ⟨v, hv, rfl⟩ := List.mem_map.1 hm
      exact c.mem_names h (hr ▸ List.mem_append_left _ hd) hv fun hl =>
        hes d hd (Definition.Derivation.mentions_definition_iff.2 ⟨v, hv, hl⟩)
    · obtain ⟨v, hv, rfl⟩ := List.mem_map.1 hu
      exact c.mem_names h (hr ▸ List.mem_append_right _ List.mem_cons_self) (he ▸ List.mem_append_left _ hv) (hts v hv)
  rw [ofTokens_of_unresolved c.beforeEnd_without ns hn hsplit hfirst (ht ▸ hname), ht]
  rfl

/-- A definition of a schema can be deleted, with its comments, its attributes and its modifier. If no field type of
another definition mentions its name, the other definitions are the schema, unchanged and in the same order. Otherwise
the first token of its name that is used as a type is refused, in the first of the other definitions that mention it. -/
theorem ofTokens_without (h : ofTokens tokens ns = .ok s) :
    (∀ d ∈ s.definitions, ∃ c : Cut tokens, c.removed.definition = d) ∧
    ∀ c : Cut tokens, s = ⟨ns, c.definitions.map Definition.Derivation.definition⟩ ∧
      ((∀ e ∈ c.remaining, ¬ e.definition.Mentions c.name) →
        ofTokens c.without ns = .ok ⟨ns, c.remaining.map Definition.Derivation.definition⟩) ∧
      ((∃ e ∈ c.remaining, e.definition.Mentions c.name) →
        ∃ es e vs, c.remaining = es ++ e :: vs ∧
          (∀ d ∈ es, ¬ d.definition.Mentions c.name) ∧ e.definition.Mentions c.name ∧
          ∃ ts t us, e.typeNames = ts ++ t :: us ∧ e.typeNames.Sublist e.tokens ∧
            (∀ u ∈ ts, u.lexeme ≠ c.name) ∧ t.lexeme = c.name ∧
            ofTokens c.without ns = .error (.unrecognizedType c.name e.definition.name t.span)) := by
  refine ⟨fun d hd => exists_cut h hd, fun c => ⟨c.eq_definitions h, ofTokens_without_unused h c, fun hc => ?_⟩⟩
  obtain ⟨es, e, vs, hr, hes, he⟩ := exists_first hc
  obtain ⟨ts, t, us, ht, hts, hl⟩ := exists_first (Definition.Derivation.mentions_definition_iff.1 he)
  have herror := ofTokens_without_used h c hr hes ht hts hl
  exact ⟨es, e, vs, hr, hes, he, ts, t, us, ht, e.typeNames_sublist, hts, hl, herror⟩

/-- A struct that no other uses can be deleted. A struct that uses itself cannot be deleted if another uses it. -/
theorem ofTokens_without_chain :
    let a := Definition.Derivation.ofNames "A" "B"
    let b := Definition.Derivation.ofNames "B" "C"
    let c := Definition.Derivation.ofNames "C" "C"
    let finish := [Token.endOfFile Span.zero]
    ofTokens (a.tokens ++ b.tokens ++ c.tokens ++ finish) "N" =
        .ok ⟨"N", [a.definition, b.definition, c.definition]⟩ ∧
      ofTokens (b.tokens ++ c.tokens ++ finish) "N" = .ok ⟨"N", [b.definition, c.definition]⟩ ∧
      ofTokens (a.tokens ++ b.tokens ++ finish) "N" = .error (.unrecognizedType "C" "B" Span.zero) := by
  intro a b c finish
  have h : ofTokens (a.tokens ++ b.tokens ++ c.tokens ++ finish) "N" =
      .ok ⟨"N", [a.definition, b.definition, c.definition]⟩ := by decide +kernel
  have hend : Token.beforeEnd finish = Comments.none.tokens := by decide
  refine ⟨h, ?_, ?_⟩
  · have hunused : ∀ e ∈ [b, c], ¬ e.definition.Mentions "A" := by decide
    exact ((ofTokens_without h).2 ⟨[], a, [b, c], finish, Comments.none, by decide, hend⟩).2.1 hunused
  · have hused : ∃ e ∈ [a, b], e.definition.Mentions "C" := by decide
    obtain ⟨es, e, vs, hr, -, he, ts, t, us, ht, -, -, -, hw⟩ :=
      ((ofTokens_without h).2 ⟨[a, b], c, [], finish, Comments.none, by decide, hend⟩).2.2 hused
    have hfirst : ∀ e ∈ [a, b], e.definition.Mentions "C" →
        e.definition.name = "B" ∧ ∀ t ∈ e.typeNames, t.span = Span.zero := by decide
    have hmem : e ∈ [a, b] := (congrArg (e ∈ ·) hr).mpr (by simp)
    obtain ⟨hname, hspan⟩ := hfirst e hmem he
    rw [hname, hspan t (by simp [ht])] at hw
    exact hw

end Schema

end SchemaLang
