import SchemaLang.Proofs.Resolution

/-!
# The order of definitions

A schema does not depend on the order in which its definitions are written.

* The names of definitions are as different, and include the same type names, in any order
  (`Definition.resolve_map_of_perm`).
* Main result: `Schema.ofTokens_perm`. The stretches of tokens of the definitions, each from its first comment to its
  closing brace, can be put in any order, and give the same definitions in that order.
-/

namespace SchemaLang

variable {ds es : List Definition.Derivation}

theorem Definition.Derivation.perm_names (h : es.Perm ds) : (names es).Perm (names ds) := h.map _

/-- The type names that are used are defined in any order. -/
theorem Definition.resolve_map_of_perm (h : es.Perm ds)
    (hr : resolve (ds.map Derivation.definition) = .ok ()) : resolve (es.map Derivation.definition) = .ok () := by
  rw [Schema.resolve_definitions_iff] at hr ⊢
  intro e he t ht
  exact (Derivation.perm_names h).mem_iff.2 (hr e (h.mem_iff.1 he) t ht)

namespace Schema

/-- The definitions of a schema can be put in any order. The tokens up to the end of the file are the stretches of the
definitions and the comments behind them. With the stretches in another order, and the same comments behind them, the
same definitions are read, in this order. -/
theorem ofTokens_perm {tokens : List Token} {ns : String} {s : Schema} (h : ofTokens tokens ns = .ok s) :
    (∃ (ds : List Definition.Derivation) (trailing : Comments),
      Token.beforeEnd tokens = ds.flatMap Definition.Derivation.tokens ++ trailing.tokens) ∧
    ∀ (ds : List Definition.Derivation) (trailing : Comments),
      Token.beforeEnd tokens = ds.flatMap Definition.Derivation.tokens ++ trailing.tokens →
        s = ⟨ns, ds.map Definition.Derivation.definition⟩ ∧
        ∀ es : List Definition.Derivation, es.Perm ds → ∀ us : List Token,
          Token.beforeEnd us = es.flatMap Definition.Derivation.tokens ++ trailing.tokens →
            ofTokens us ns = .ok ⟨ns, es.map Definition.Derivation.definition⟩ := by
  constructor
  · obtain ⟨d, ht, _⟩ := exists_derivation h
    exact ⟨d.definitions, d.trailing, ht.symm⟩
  · intro ds trailing ht
    obtain ⟨hn, hr, rfl⟩ := (ofTokens_eq_ok_iff_of_definitions ht).1 h
    refine ⟨rfl, fun es hp us hu => ?_⟩
    have hn' : (Definition.Derivation.names es).Nodup := (Definition.Derivation.perm_names hp).nodup_iff.2 hn
    exact (ofTokens_eq_ok_iff_of_definitions hu).2 ⟨hn', Definition.resolve_map_of_perm hp hr, rfl⟩

/-- Two structs that use each other, the first with a comment and an end of file behind the second. -/
theorem ofTokens_perm_mutual :
    let a := { Definition.Derivation.ofNames "A" "B" with
      comments := ⟨[(TokenOf.placeless .blockComment "first").token], by decide⟩ }
    let b := Definition.Derivation.ofNames "B" "A"
    let finish := [Token.endOfFile Span.zero]
    ofTokens (a.tokens ++ b.tokens ++ finish) "N" = .ok ⟨"N", [a.definition, b.definition]⟩ ∧
      ofTokens (b.tokens ++ a.tokens ++ finish) "N" = .ok ⟨"N", [b.definition, a.definition]⟩ := by
  intro a b finish
  have h : ofTokens (a.tokens ++ b.tokens ++ finish) "N" = .ok ⟨"N", [a.definition, b.definition]⟩ := by
    decide +kernel
  have hab : Token.beforeEnd (a.tokens ++ b.tokens ++ finish) =
      [a, b].flatMap Definition.Derivation.tokens ++ Comments.none.tokens := by decide
  have hba : Token.beforeEnd (b.tokens ++ a.tokens ++ finish) =
      [b, a].flatMap Definition.Derivation.tokens ++ Comments.none.tokens := by decide
  exact ⟨h, ((ofTokens_perm h).2 [a, b] Comments.none hab).2 [b, a] (.swap a b []) _ hba⟩

end Schema

end SchemaLang
