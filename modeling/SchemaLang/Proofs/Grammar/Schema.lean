import Mathlib.Data.List.TakeWhile
import SchemaLang.Proofs.Grammar.Definition
import SchemaLang.Schema.Reader

/-!
# Derivations: schemas

The grammar of schemas.

    schema = definition* C*

* A derivation also says that no name is defined twice and that every type name is defined.
* The tokens of a schema are those before the first end of file (`Token.beforeEnd`); there always is one
  (`Token.exists_terminated`).
* The reading of definitions goes on behind definitions with new names (`Progress.upTo_definitions`) and ends at the
  first end of file (`Progress.upTo_end`).
* Main result: the schemas that are read are exactly the derived ones (`Schema.ofTokens_eq_ok_iff_derives`).
-/

namespace SchemaLang

/-! ## The end of the file -/

namespace Token

/-- The tokens before the first end of file. -/
def beforeEnd (tokens : List Token) : List Token := tokens.takeWhile fun t => t.kind ≠ .endOfFile

theorem beforeEnd_append {ts us : List Token} {e : Token} (h : ∀ t ∈ ts, t.kind ≠ .endOfFile)
    (he : e.kind = .endOfFile) : beforeEnd (ts ++ e :: us) = ts := by
  rw [beforeEnd, List.takeWhile_append_of_pos (by simpa using h), List.takeWhile_cons_of_neg (by simp [he]),
    List.append_nil]

/-- A terminated token list goes on with an end of file behind the tokens before the first. -/
theorem exists_terminated (tokens : List Token) :
    ∃ (e : TokenOf .endOfFile) (us : List Token), terminated tokens = beforeEnd tokens ++ e.token :: us := by
  cases hf : tokens.find? fun t => t.kind = .endOfFile with
  | some e =>
    obtain ⟨he, ts, us, rfl, hts⟩ := List.find?_eq_some_iff_append.1 hf
    have he : e.kind = .endOfFile := by simpa using he
    have hb : beforeEnd (ts ++ e :: us) = ts := beforeEnd_append (by simpa using hts) he
    rw [hb, terminated]
    split
    · rename_i h
      simp at h
    · split
      · exact ⟨⟨e, he⟩, us, rfl⟩
      · exact ⟨⟨e, he⟩, _, by rw [List.append_assoc, List.cons_append]⟩
  | none =>
    have hall : ∀ t ∈ tokens, t.kind ≠ .endOfFile := by simpa using hf
    have hb : beforeEnd tokens = tokens := List.takeWhile_eq_self_iff.2 (by simpa using hall)
    rw [hb, terminated]
    split
    · rename_i h
      rw [List.getLast?_eq_none_iff] at h
      exact ⟨⟨endOfFile Span.zero, rfl⟩, [], by simp [h]⟩
    · rename_i last h
      rw [if_neg (hall last (List.mem_of_getLast? h))]
      exact ⟨⟨endOfFile _, rfl⟩, [], rfl⟩

theorem kind_ne_of_mem_beforeEnd {tokens : List Token} {t : Token} (h : t ∈ beforeEnd tokens) :
    t.kind ≠ .endOfFile := by
  simpa using List.mem_takeWhile_imp h

/-- An end of file that is added changes nothing before it. -/
theorem beforeEnd_terminated (tokens : List Token) : beforeEnd (terminated tokens) = beforeEnd tokens := by
  obtain ⟨e, us, h⟩ := exists_terminated tokens
  rw [h, beforeEnd_append (fun t => kind_ne_of_mem_beforeEnd) e.kind_eq]

end Token

/-! ## Definitions one after the other -/

theorem Definition.length_le_length_flatMap (ds : List Definition.Derivation) :
    ds.length ≤ (ds.flatMap Definition.Derivation.tokens).length := by
  induction ds with
  | nil => exact Nat.le_refl 0
  | cons d ds ih =>
    have := d.length_tokens
    simp only [List.flatMap_cons, List.length_append, List.length_cons]
    omega

/-- No token of definitions and comments behind them ends the file. -/
theorem Definition.kind_ne_of_mem_append {ds : List Definition.Derivation} {cs : Comments} {t : Token}
    (h : t ∈ ds.flatMap Definition.Derivation.tokens ++ cs.tokens) : t.kind ≠ .endOfFile := by
  rcases List.mem_append.1 h with h | h
  · obtain ⟨d, _, hd⟩ := List.mem_flatMap.1 h
    exact Definition.Derivation.kind_ne_of_mem hd
  · simp [Comments.isComment_eq h]

namespace Progress

open Definition (Derivation)

/-- A definition is read and added, if its name is new. -/
theorem upTo_definition (n : Nat) (before : List Definition) (d : Derivation) (ts : List Token) :
    upTo (n + 1) before (d.tokens ++ ts) =
      if d.definition.name ∈ before.map Definition.name then
        ⟨before, ts, some (.multipleDefinitions d.definition.name d.name.token.span)⟩
      else upTo n (before ++ [d.definition]) ts := by
  have hm : (before.any fun e => decide (e.name = d.definition.name)) = true ↔
      d.definition.name ∈ before.map Definition.name := by simp
  simp only [upTo_succ, Definition.read?_tokens, hm]

theorem upTo_end (n : Nat) (before : List Definition) (cs : Comments) (e : TokenOf .endOfFile) (us : List Token) :
    upTo (n + 1) before (cs.tokens ++ e.token :: us) = ⟨before, e.token :: us, none⟩ := by
  simp only [upTo_succ, Definition.read?_of_endOfFile]

/-- Definitions with different new names are read one after the other. -/
theorem upTo_definitions (n : Nat) (ts : List Token) : ∀ (ds : List Derivation) (before : List Definition),
    (before.map Definition.name ++ Derivation.names ds).Nodup →
      upTo (n + ds.length) before (ds.flatMap Derivation.tokens ++ ts) =
        upTo n (before ++ ds.map Derivation.definition) ts
  | [], before, _ => by simp
  | d :: ds, before, h => by
    have hnew : d.definition.name ∉ before.map Definition.name := by
      intro hm
      exact (List.nodup_append.1 h).2.2 _ hm _ List.mem_cons_self rfl
    have hrest := upTo_definitions n ts ds (before ++ [d.definition]) (by simpa [Derivation.names] using h)
    rw [List.flatMap_cons, List.append_assoc, List.length_cons, ← Nat.add_assoc, upTo_definition, if_neg hnew, hrest,
      List.map_cons, List.append_assoc, List.singleton_append]

/-- A reading that comes to the end of the file has read definitions with different names. -/
theorem exists_of_upTo : ∀ {n : Nat} {before after : List Definition} {ts rest : List Token},
    upTo n before ts = ⟨after, rest, none⟩ → (before.map Definition.name).Nodup →
      ∃ (ds : List Derivation) (cs : Comments) (e : TokenOf .endOfFile) (us : List Token),
        after = before ++ ds.map Derivation.definition ∧ (after.map Definition.name).Nodup ∧
          ts = ds.flatMap Derivation.tokens ++ cs.tokens ++ e.token :: us
  | 0, _, _, _, _, h, _ => by simp [upTo] at h
  | n + 1, before, after, ts, rest, h, hb => by
    rw [upTo_succ] at h
    split at h
    · simp at h
    · rename_i mid hr
      obtain ⟨cs, e, us, rfl, rfl⟩ := Definition.exists_of_read?_none hr
      simp only [mk.injEq, and_true] at h
      obtain ⟨rfl, _⟩ := h
      exact ⟨[], cs, e, us, by simp, hb, by simp⟩
    · rename_i name d mid hr
      obtain ⟨d, rfl, rfl, rfl⟩ := Definition.exists_of_read? hr
      split at h
      · simp at h
      · rename_i hnew
        have hb' : ((before ++ [d.definition]).map Definition.name).Nodup := by
          simp only [List.map_append, List.map_cons, List.map_nil]
          refine List.nodup_append.2 ⟨hb, by simp, ?_⟩
          simpa using hnew
        obtain ⟨ds, cs, e, us, rfl, hn, rfl⟩ := exists_of_upTo h hb'
        exact ⟨d :: ds, cs, e, us, by simp, hn, by simp⟩

theorem finish_eq_ok_iff {p : Progress} {ns : String} {s : Schema} : p.finish ns = .ok s ↔
    p.problem = none ∧ Definition.resolve p.definitions = .ok () ∧ s = ⟨ns, p.definitions⟩ := by
  rw [finish]
  cases p.problem with
  | some problem => simp
  | none =>
    cases Definition.resolve p.definitions with
    | error problem => simp [Except.map]
    | ok u => simp [Except.map, eq_comm]

end Progress

/-! ## Schemas -/

namespace Schema

/-- A derivation of a schema: definitions with different names, in whose types only these names are used. -/
structure Derivation where
  definitions : List Definition.Derivation
  trailing : Comments
  distinct : (Definition.Derivation.names definitions).Nodup
  closed : ∀ d ∈ definitions, ∀ t ∈ d.typeNames, t.lexeme ∈ Definition.Derivation.names definitions

/-- The tokens of a derivation in order. -/
def Derivation.tokens (d : Derivation) : List Token :=
  d.definitions.flatMap Definition.Derivation.tokens ++ d.trailing.tokens

/-- The schema that a derivation derives, in a namespace. -/
def Derivation.schema (d : Derivation) (ns : String) : Schema :=
  ⟨ns, d.definitions.map Definition.Derivation.definition⟩

theorem Derivation.names_schema (d : Derivation) (ns : String) :
    (d.schema ns).definitions.map Definition.name = Definition.Derivation.names d.definitions :=
  Definition.Derivation.map_name_definition d.definitions

/-- No token of a schema ends the file. -/
theorem Derivation.kind_ne_of_mem {d : Derivation} {t : Token} (h : t ∈ d.tokens) : t.kind ≠ .endOfFile :=
  Definition.kind_ne_of_mem_append h

/-- The tokens of a definition stand one after the other in those of the schema. -/
theorem Derivation.infix_of_mem {d : Derivation} {e : Definition.Derivation} (h : e ∈ d.definitions) :
    e.tokens <:+: d.tokens :=
  (List.infix_of_mem_flatten (List.mem_map_of_mem h)).trans (List.prefix_append _ _).isInfix

/-- The references in derived definitions are to defined names exactly if the tokens that name a definition do. -/
theorem resolve_definitions_iff {ds : List Definition.Derivation} :
    Definition.resolve (ds.map Definition.Derivation.definition) = .ok () ↔
      ∀ d ∈ ds, ∀ t ∈ d.typeNames, t.lexeme ∈ Definition.Derivation.names ds := by
  rw [Definition.resolve, Reference.resolve_eq_ok_iff, Definition.Derivation.map_name_definition]
  simp only [List.flatMap_map, Definition.Derivation.references_definition]
  constructor
  · intro h d hd t ht
    exact h _ (List.mem_flatMap.2 ⟨d, hd, List.mem_map.2 ⟨t, ht, rfl⟩⟩)
  · intro h r hr
    obtain ⟨d, hd, hr⟩ := List.mem_flatMap.1 hr
    obtain ⟨t, ht, rfl⟩ := List.mem_map.1 hr
    exact h d hd t ht

/-- Reading without a problem comes to the first end of file, behind definitions with different names. -/
theorem exists_of_problem_eq_none {tokens : List Token}
    (h : (Progress.ofTokens (Token.terminated tokens)).problem = none) :
    ∃ (ds : List Definition.Derivation) (cs : Comments),
      (Progress.ofTokens (Token.terminated tokens)).definitions = ds.map Definition.Derivation.definition ∧
        (Definition.Derivation.names ds).Nodup ∧
          Token.beforeEnd tokens = ds.flatMap Definition.Derivation.tokens ++ cs.tokens := by
  cases hts : Progress.ofTokens (Token.terminated tokens) with
  | mk after rest problem =>
    rw [hts] at h
    obtain rfl : problem = none := h
    obtain ⟨ds, cs, e, us, rfl, hn, ht⟩ := Progress.exists_of_upTo hts (by simp)
    rw [List.nil_append, Definition.Derivation.map_name_definition] at hn
    refine ⟨ds, cs, List.nil_append _, hn, ?_⟩
    rw [← Token.beforeEnd_terminated, ht]
    exact Token.beforeEnd_append (fun t => Definition.kind_ne_of_mem_append) e.kind_eq

/-- Every schema that is read has a derivation from the tokens before the end of the file. -/
theorem exists_derivation {tokens : List Token} {ns : String} {s : Schema} (h : ofTokens tokens ns = .ok s) :
    ∃ d : Derivation, d.tokens = Token.beforeEnd tokens ∧ d.schema ns = s := by
  obtain ⟨hp, hr, rfl⟩ := Progress.finish_eq_ok_iff.1 h
  obtain ⟨ds, cs, hds, hn, ht⟩ := exists_of_problem_eq_none hp
  rw [hds] at hr ⊢
  exact ⟨⟨ds, cs, hn, resolve_definitions_iff.1 hr⟩, ht.symm, rfl⟩

/-- The reading of the definitions in front of the end of the file, whatever comes after it. -/
theorem exists_upTo {ds : List Definition.Derivation} {cs : Comments} {tokens : List Token}
    (h : Token.beforeEnd tokens = ds.flatMap Definition.Derivation.tokens ++ cs.tokens) (ns : String) :
    ∃ (n : Nat) (e : TokenOf .endOfFile) (us : List Token), ofTokens tokens ns = Progress.finish
      (.upTo (n + 1 + ds.length) [] (ds.flatMap Definition.Derivation.tokens ++ (cs.tokens ++ e.token :: us))) ns := by
  obtain ⟨e, us, ht⟩ := Token.exists_terminated tokens
  rw [h, List.append_assoc] at ht
  have hlen : ds.length ≤ (Token.terminated tokens).length := by
    rw [ht, List.length_append]
    exact Nat.le_add_right_of_le (Definition.length_le_length_flatMap ds)
  refine ⟨(Token.terminated tokens).length - ds.length, e, us, ?_⟩
  rw [ofTokens, Progress.ofTokens, ← ht]
  congr 2
  omega

/-- Definitions with different names are read to the end of the file. -/
theorem ofTokens_of_nodup {ds : List Definition.Derivation} {cs : Comments} {tokens : List Token}
    (h : Token.beforeEnd tokens = ds.flatMap Definition.Derivation.tokens ++ cs.tokens) (ns : String)
    (hn : (Definition.Derivation.names ds).Nodup) : ofTokens tokens ns =
      (Definition.resolve (ds.map Definition.Derivation.definition)).map fun _ =>
        ⟨ns, ds.map Definition.Derivation.definition⟩ := by
  obtain ⟨n, e, us, hu⟩ := exists_upTo h ns
  rw [hu, Progress.upTo_definitions _ _ _ _ (by simpa using hn), Progress.upTo_end]
  rfl

/-- Every derivation is read as its schema. -/
theorem ofTokens_of_derivation {tokens : List Token} (d : Derivation) (ns : String)
    (h : d.tokens = Token.beforeEnd tokens) : ofTokens tokens ns = .ok (d.schema ns) := by
  rw [ofTokens_of_nodup h.symm ns d.distinct, resolve_definitions_iff.2 d.closed]
  rfl

/-- The schemas that are read from a token list are exactly those that its tokens before the first end of file derive,
with the derived definitions in order. -/
theorem ofTokens_eq_ok_iff_derives {tokens : List Token} {ns : String} {s : Schema} :
    ofTokens tokens ns = .ok s ↔
      s.ns = ns ∧ ∃ d : Derivation, d.tokens = Token.beforeEnd tokens ∧
        s.definitions = d.definitions.map Definition.Derivation.definition := by
  constructor
  · intro h
    obtain ⟨d, ht, rfl⟩ := exists_derivation h
    exact ⟨rfl, d, ht, rfl⟩
  · rintro ⟨rfl, d, ht, hs⟩
    rw [ofTokens_of_derivation d s.ns ht, Derivation.schema, ← hs]

end Schema

end SchemaLang
