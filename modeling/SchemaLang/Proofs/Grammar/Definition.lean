import SchemaLang.Proofs.Grammar.Field
import SchemaLang.Schema.References

/-!
# Derivations: definitions

The grammar of definitions.

    definition = C* attribute* readonly? ( enum | struct | message ) C* Identifier C* '{' field* C* '}'

* `Definition.Derivation` is a derivation; its fields have the bodies of its kind.
* `typeNames` are the tokens that name a definition; they are the references of the derived definition, in the same
  order (`references_definition`).
* Reading gives exactly the derived definitions (`read?_eq_some_iff`). It takes no token after the closing brace, and
  none of them has an effect.
-/

namespace SchemaLang

open TokenReader

namespace DefinitionKind

/-- The kind of the word that starts a definition. -/
def word : DefinitionKind → TokenKind
  | enum => .enum
  | struct => .struct
  | message => .message

theorem ofKeyword?_eq_some_iff {kind : TokenKind} {k : DefinitionKind} : ofKeyword? kind = some k ↔ kind = k.word := by
  cases k <;> cases kind <;> simp [ofKeyword?, word]

theorem exists_of_read {ts rest : List Token} {k : DefinitionKind} (h : read ts = .done k rest) :
    ∃ t : TokenOf k.word, ts = t.token :: rest := by
  obtain ⟨w, ts₁, hw, h₁⟩ := bind_eq_done_iff.1 h
  obtain ⟨us, rfl, rfl⟩ := current_eq_done_iff.1 hw
  cases hk : ofKeyword? w.kind with
  | none =>
    simp only [hk] at h₁
    exact absurd h₁ fail_ne_done
  | some k' =>
    simp only [hk] at h₁
    obtain ⟨_, ts₂, ha, h₂⟩ := bind_eq_done_iff.1 h₁
    obtain ⟨t, ht⟩ := advance_eq_done_iff.1 ha
    obtain ⟨rfl, rfl⟩ := pure_eq_done_iff.1 h₂
    obtain ⟨rfl, rfl⟩ := List.cons.inj ht
    exact ⟨⟨w, ofKeyword?_eq_some_iff.1 hk⟩, rfl⟩

theorem read_token {k : DefinitionKind} (t : TokenOf k.word) (rest : List Token) :
    read (t.token :: rest) = .done k rest := by
  simp [read, bind_apply, current, ofKeyword?_eq_some_iff.2 t.kind_eq, advance, pure_apply]

end DefinitionKind

namespace Definition

/-- A derivation of a definition. -/
structure Derivation where
  comments : Comments
  remarks : List Attribute.Derivation
  modifier : Option (TokenOf .readonly)
  kind : DefinitionKind
  word : TokenOf kind.word
  name : Commented .identifier
  opening : Commented .openBrace
  fields : List (Field.Derivation kind)
  closing : Commented .closeBrace

namespace Derivation

/-- The tokens from the word that says what is defined. -/
def core (d : Derivation) : List Token :=
  d.word.token :: (d.name.tokens ++ d.opening.tokens ++ d.fields.flatMap Field.Derivation.tokens ++ d.closing.tokens)

/-- The tokens of the modifier. -/
def modifierTokens (d : Derivation) : List Token := d.modifier.elim [] fun t => [t.token]

/-- The tokens of a derivation in order. -/
def tokens (d : Derivation) : List Token :=
  d.comments.tokens ++ (d.remarks.flatMap Attribute.Derivation.tokens ++ (d.modifierTokens ++ d.core))

/-- The definition that a derivation derives. -/
def definition (d : Derivation) : Definition where
  name := d.name.token.lexeme
  kind := d.kind
  isReadOnly := d.modifier.isSome
  span := d.name.token.span.combine d.closing.token.span
  documentation := d.comments.documentation
  attributes := d.remarks.map Attribute.Derivation.value
  fields := d.fields.map fun f => f.field d.name.token

/-- The names of derived definitions, in order. -/
def names (ds : List Derivation) : List String := ds.map fun d => d.definition.name

theorem map_name_definition (ds : List Derivation) : (ds.map definition).map Definition.name = names ds := by
  rw [List.map_map]
  rfl

/-- The tokens that name a definition in the types of the fields, in order. -/
def typeNames (d : Derivation) : List Token := d.fields.flatMap fun f => f.body.typeNames

/-- The references of the derived definition are those tokens. -/
theorem references_definition (d : Derivation) : d.definition.references =
    d.typeNames.map fun t => ⟨t.lexeme, d.name.token.lexeme, t.span⟩ := by
  simp only [references, FieldType.references, definition, typeNames, List.flatMap_map, List.map_flatMap,
    Field.Derivation.field, Field.Body.leaves_type, List.map_map]
  rfl

theorem sublist_flatMap_tokens {kind : DefinitionKind} (fields : List (Field.Derivation kind)) :
    (fields.flatMap fun f => f.body.typeNames).Sublist (fields.flatMap Field.Derivation.tokens) := by
  induction fields with
  | nil => exact .slnil
  | cons f fields ih =>
    have hf : f.body.typeNames.Sublist f.tokens :=
      ((f.body.typeNames_sublist.trans (List.sublist_append_right _ _)).trans (List.sublist_append_left _ _)).trans
        (List.sublist_append_right _ _)
    exact hf.append ih

/-- The names stand among the tokens in the same order. -/
theorem typeNames_sublist (d : Derivation) : d.typeNames.Sublist d.tokens := by
  have hfields := sublist_flatMap_tokens d.fields
  have hcore : (d.fields.flatMap Field.Derivation.tokens).Sublist d.core :=
    ((List.sublist_append_right _ _).trans (List.sublist_append_left _ _)).cons _
  have hmodifier : d.core.Sublist (d.modifierTokens ++ d.core) := List.sublist_append_right _ _
  have hremarks := hmodifier.trans (List.sublist_append_right (d.remarks.flatMap Attribute.Derivation.tokens) _)
  have hcomments := hremarks.trans (List.sublist_append_right d.comments.tokens _)
  exact (hfields.trans hcore).trans hcomments

/-- No token of a definition ends the file. -/
theorem kind_ne_of_mem {d : Derivation} {t : Token} (h : t ∈ d.tokens) : t.kind ≠ .endOfFile := by
  simp only [tokens, core, modifierTokens, List.mem_append, List.mem_cons, List.mem_flatMap] at h
  rcases h with h | ⟨a, _, h⟩ | h | rfl | ((h | h) | ⟨f, _, h⟩) | h
  · simp [Comments.isComment_eq h]
  · exact Attribute.Derivation.kind_ne_of_mem h
  · cases hm : d.modifier with
    | none => simp [hm] at h
    | some m =>
      obtain rfl : t = m.token := by simpa [hm] using h
      simp [m.kind_eq]
  · rw [d.word.kind_eq]
    cases d.kind <;> simp [DefinitionKind.word]
  · exact d.name.kind_ne_endOfFile h
  · exact d.opening.kind_ne_endOfFile h
  · exact Field.Derivation.kind_ne_of_mem h
  · exact d.closing.kind_ne_endOfFile h

theorem length_tokens (d : Derivation) : 0 < d.tokens.length := by
  simp only [tokens, core, List.length_append, List.length_cons]
  omega

end Derivation

/-! ## Reading derives -/

variable {ts rest : List Token}

theorem exists_of_modifier {m : Option Token} (h : eat? .readonly ts = .done m rest) :
    ∃ o : Option (TokenOf .readonly), o.isSome = m.isSome ∧ ts = (o.elim [] fun t => [t.token]) ++ rest := by
  cases m with
  | none => exact ⟨none, rfl, (eq_of_eat?_none h).1⟩
  | some m =>
    obtain ⟨t, rfl, rfl⟩ := exists_of_eat?_some h
    exact ⟨some t, rfl, rfl⟩

/-- Whatever is read as a definition has a derivation from the tokens that were taken. -/
theorem exists_of_read? {name : Token} {d : Definition} (h : read? ts = .done (some (name, d)) rest) :
    ∃ e : Derivation, e.name.token = name ∧ e.definition = d ∧ ts = e.tokens ++ rest := by
  obtain ⟨cs, t, us, rfl, _, h₂⟩ := exists_of_documented h
  split at h₂
  · simp [pure_eq_done_iff] at h₂
  · obtain ⟨attributes, ts₃, ha, h₃⟩ := bind_eq_done_iff.1 h₂
    obtain ⟨remarks, mid, rfl, hr, hstop⟩ := exists_of_many Attribute.exists_of_read? ha
    obtain ⟨rfl, _⟩ := Attribute.eq_of_read?_none hstop
    obtain ⟨modifier, ts₄, hm, h₄⟩ := bind_eq_done_iff.1 h₃
    obtain ⟨o, ho, rfl⟩ := exists_of_modifier hm
    obtain ⟨kind, ts₅, hk, h₅⟩ := bind_eq_done_iff.1 h₄
    obtain ⟨word, rfl⟩ := DefinitionKind.exists_of_read hk
    obtain ⟨_, ts₆, hn, h₆⟩ := bind_eq_done_iff.1 h₅
    obtain ⟨n, rfl, rfl⟩ := exists_of_expect hn
    obtain ⟨_, ts₇, hob, h₇⟩ := bind_eq_done_iff.1 h₆
    obtain ⟨opening, rfl, rfl⟩ := exists_of_expect hob
    obtain ⟨fs, ts₈, hf, h₈⟩ := bind_eq_done_iff.1 h₇
    obtain ⟨fields, stop, rfl, rfl, hs⟩ := exists_of_many Field.exists_of_read? hf
    obtain ⟨ds, rfl⟩ := Field.exists_of_read?_none hs
    obtain ⟨_, ts₉, hcb, h₉⟩ := bind_eq_done_iff.1 h₈
    obtain ⟨closing, rfl, rfl⟩ := exists_of_expect hcb
    obtain ⟨he, rfl⟩ := pure_eq_done_iff.1 h₉
    obtain ⟨rfl, rfl⟩ := Prod.mk.inj (Option.some.inj he)
    refine ⟨⟨cs, remarks, o, kind, word, n, opening, fields, closing.after ds⟩, rfl, ?_, ?_⟩
    · simp [Derivation.definition, ho]
    · simp [Derivation.tokens, Derivation.modifierTokens, Derivation.core, hr]

/-- Where no definition is read, the end of the file comes after the comments. -/
theorem exists_of_read?_none (h : read? ts = .done none rest) :
    ∃ (cs : Comments) (e : TokenOf .endOfFile) (us : List Token), rest = e.token :: us ∧ ts = cs.tokens ++ rest := by
  obtain ⟨cs, t, us, rfl, _, h₂⟩ := exists_of_documented h
  split at h₂
  · rename_i hk
    obtain ⟨_, rfl⟩ := pure_eq_done_iff.1 h₂
    exact ⟨cs, ⟨t, hk⟩, us, rfl, rfl⟩
  · exact absurd h₂ (bind_ne_none fun _ _ => bind_ne_none fun _ _ => bind_ne_none fun _ _ => bind_ne_none fun _ _ =>
      bind_ne_none fun _ _ => bind_ne_none fun _ _ => bind_ne_none fun _ _ => some_ne_none)

/-! ## Derivations are read -/

namespace Derivation

theorem exists_cons_core (d : Derivation) (rest : List Token) :
    ∃ t us, d.modifierTokens ++ (d.core ++ rest) = t :: us ∧ t.kind ∈ [.readonly, .enum, .struct, .message] := by
  cases hm : d.modifier with
  | some m => exact ⟨m.token, _, by simp [modifierTokens, hm]; rfl, by simp [m.kind_eq]⟩
  | none =>
    refine ⟨d.word.token, _, by simp [modifierTokens, hm, core]; rfl, ?_⟩
    rw [d.word.kind_eq]
    cases d.kind <;> simp [DefinitionKind.word]

/-- After the comments, a definition starts with an attribute, a modifier or the word for its kind. -/
theorem exists_cons (d : Derivation) (rest : List Token) :
    ∃ t us, d.remarks.flatMap Attribute.Derivation.tokens ++ (d.modifierTokens ++ (d.core ++ rest)) = t :: us ∧
      t.kind ∈ [.openBracket, .readonly, .enum, .struct, .message] := by
  cases hr : d.remarks with
  | nil =>
    obtain ⟨t, us, ht, hk⟩ := d.exists_cons_core rest
    exact ⟨t, us, by simpa using ht, List.mem_cons_of_mem _ hk⟩
  | cons a as =>
    obtain ⟨us, ha⟩ := a.exists_cons (as.flatMap Attribute.Derivation.tokens ++ (d.modifierTokens ++ (d.core ++ rest)))
    exact ⟨a.opening.token, us, by simpa using ha, by simp [a.opening.kind_eq]⟩

theorem many_remarks (d : Derivation) (rest : List Token) :
    many Attribute.read? (d.remarks.flatMap Attribute.Derivation.tokens ++ (d.modifierTokens ++ (d.core ++ rest))) =
      .done (d.remarks.map Attribute.Derivation.value) (d.modifierTokens ++ (d.core ++ rest)) := by
  obtain ⟨t, us, ht, hk⟩ := d.exists_cons_core rest
  rw [ht]
  refine many_tokens Attribute.progresses_read? d.remarks (fun a _ => Attribute.read?_tokens a)
    (Attribute.read?_of_kind_ne ?_)
  rintro he
  simp [he] at hk

theorem eat?_modifier (d : Derivation) (rest : List Token) : eat? .readonly (d.modifierTokens ++ (d.core ++ rest)) =
    .done (d.modifier.map TokenOf.token) (d.core ++ rest) := by
  cases hm : d.modifier with
  | some m => simp [modifierTokens, hm, eat?_of_kind m.kind_eq]
  | none =>
    have hk : d.word.token.kind ≠ .readonly := by
      rw [d.word.kind_eq]
      cases d.kind <;> simp [DefinitionKind.word]
    simp [modifierTokens, hm, core, eat?_of_kind_ne hk]

theorem many_fields (d : Derivation) (rest : List Token) :
    many (m := TokenReader) (Field.read? d.kind d.name.token)
      (d.fields.flatMap Field.Derivation.tokens ++ (d.closing.tokens ++ rest)) =
        .done (d.fields.map fun f => f.field d.name.token) (d.closing.token :: rest) :=
  many_tokens (Field.progresses_read? d.kind d.name.token) d.fields (fun f _ => Field.read?_tokens d.name.token f)
    (Field.read?_of_closeBrace d.name.token d.closing rest)

end Derivation

/-- A derivation is read as its definition, whatever follows. -/
theorem read?_tokens (d : Derivation) (rest : List Token) :
    read? (d.tokens ++ rest) = .done (some (d.name.token, d.definition)) rest := by
  obtain ⟨t, us, ht, hk⟩ := d.exists_cons rest
  have hc : t.isComment = false := by
    simp only [Token.isComment, decide_eq_false_iff_not]
    intro he
    simp [he] at hk
  have he : t.kind ≠ .endOfFile := by
    intro he
    simp [he] at hk
  have hr := d.many_remarks rest
  rw [ht] at hr
  simp only [Derivation.tokens, List.append_assoc, ht]
  simp only [read?, readIn?, liftM_eq, bind_apply, lastComment_tokens d.comments hc, current, he, if_false, hr,
    d.eat?_modifier]
  simp [Derivation.core, DefinitionKind.read_token, expect_tokens, d.many_fields, expect_token, pure_apply,
    Derivation.definition]

theorem read?_of_endOfFile (cs : Comments) (e : TokenOf .endOfFile) (us : List Token) :
    read? (cs.tokens ++ e.token :: us) = .done none (e.token :: us) := by
  have hc := lastComment_tokens cs (e.isComment_eq_false (by decide)) us
  simp [read?, readIn?, bind_apply, hc, current, e.kind_eq, pure_apply]

/-- Reading gives exactly what the tokens at the front derive. -/
theorem read?_eq_some_iff {name : Token} {d : Definition} : read? ts = .done (some (name, d)) rest ↔
    ∃ e : Derivation, e.name.token = name ∧ e.definition = d ∧ ts = e.tokens ++ rest := by
  constructor
  · exact exists_of_read?
  · rintro ⟨e, rfl, rfl, rfl⟩
    exact read?_tokens e rest

end Definition

end SchemaLang
