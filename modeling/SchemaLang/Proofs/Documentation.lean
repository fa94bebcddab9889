import SchemaLang.Proofs.Resolution

/-!
# Comments and documentation

Comments change nothing but documentation.

* `Token.Thinned us ts` says that `us` is `ts` without some of the comments. `undocumented` is a field, a definition or
  a schema without documentation.
* Without some of its comments a derivation is still one, and it derives the same: a type
  (`FieldType.Derivation.exists_thinned`), an attribute (`Attribute.Derivation.exists_thinned`), a field or a definition
  up to documentation (`Field.Derivation.exists_thinned`, `Definition.Derivation.exists_thinned`). Where a comment would
  keep a bracket or a parenthesis from being read as a part of what is in front, a derivation has none.
* Main result: `Schema.exists_ofTokens_of_thinned`.
-/

namespace SchemaLang

/-! ## Without some comments -/

namespace Token

/-- A token list without some of the comments of another one. -/
inductive Thinned : List Token → List Token → Prop where
  | nil : Thinned [] []
  | keep (t : Token) {us ts : List Token} (rest : Thinned us ts) : Thinned (t :: us) (t :: ts)
  | drop {c : Token} (comment : c.isComment = true) {us ts : List Token} (rest : Thinned us ts) : Thinned us (c :: ts)

/-- Any choice of comments can be left out. -/
theorem thinned_filter (p : Token → Bool) : ∀ ts : List Token, Thinned (ts.filter fun t => !t.isComment || p t) ts
  | [] => .nil
  | t :: ts => by
    rw [List.filter_cons]
    split
    · exact .keep t (thinned_filter p ts)
    · rename_i h
      have hc : t.isComment = true := by
        cases hc : t.isComment with
        | true => rfl
        | false => simp [hc] at h
      exact .drop hc (thinned_filter p ts)

namespace Thinned

variable {us ts ts' : List Token} {t : Token}

/-- The parts of a list are thinned one by one. -/
theorem exists_of_append (h : Thinned us (ts ++ ts')) :
    ∃ vs ws, us = vs ++ ws ∧ Thinned vs ts ∧ Thinned ws ts' := by
  induction ts generalizing us with
  | nil => exact ⟨[], us, rfl, .nil, h⟩
  | cons t ts ih =>
    cases h with
    | keep _ h =>
      obtain ⟨vs, ws, rfl, hv, hw⟩ := ih h
      exact ⟨t :: vs, ws, rfl, .keep t hv, hw⟩
    | drop hc h =>
      obtain ⟨vs, ws, rfl, hv, hw⟩ := ih h
      exact ⟨vs, ws, rfl, .drop hc hv, hw⟩

/-- What is no comment stays. -/
theorem exists_of_cons (h : Thinned us (t :: ts)) (ht : t.isComment = false) : ∃ vs, us = t :: vs ∧ Thinned vs ts := by
  cases h with
  | keep _ h => exact ⟨_, rfl, h⟩
  | drop hc => simp [hc] at ht

theorem head?_eq (h : Thinned us ts) (ht : ∀ t ∈ ts.head?, t.isComment = false) : us.head? = ts.head? := by
  cases ts with
  | nil => cases h with | nil => rfl
  | cons t ts =>
    obtain ⟨vs, rfl, _⟩ := h.exists_of_cons (ht t rfl)
    rfl

/-- A list without comments stays as it is. -/
theorem eq_of_forall (h : Thinned us ts) (ht : ∀ t ∈ ts, t.isComment = false) : us = ts := by
  induction h with
  | nil => rfl
  | keep t _ ih => rw [ih fun u hu => ht u (List.mem_cons_of_mem t hu)]
  | drop hc => simp [hc] at ht

theorem subset (h : Thinned us ts) : us ⊆ ts := by
  induction h with
  | nil => exact List.Subset.refl []
  | keep t _ ih => exact List.cons_subset_cons t ih
  | drop _ _ ih => exact List.subset_cons_of_subset _ ih

/-- No comment ends the file. -/
theorem beforeEnd (h : Thinned us ts) : Thinned (beforeEnd us) (beforeEnd ts) := by
  induction h with
  | nil => exact .nil
  | keep t _ ih =>
    rw [Token.beforeEnd, Token.beforeEnd, List.takeWhile_cons, List.takeWhile_cons]
    split
    · exact .keep t ih
    · exact .nil
  | @drop c hc us ts _ ih =>
    have hk : c.kind = .blockComment := by simpa [isComment] using hc
    rw [Token.beforeEnd, Token.beforeEnd, List.takeWhile_cons_of_pos (by simp [hk])]
    exact .drop hc ih

theorem partwise : Partwise Thinned where
  nil h := by
    cases h
    rfl
  append := exists_of_append

end Thinned

end Token

open Token (Thinned)

variable {us : List Token}

/-! ## Tokens after fewer comments -/

theorem Comments.exists_thinned (cs : Comments) (h : Thinned us cs.tokens) : ∃ ds : Comments, ds.tokens = us :=
  ⟨⟨us, fun c hc => cs.isComment c (h.subset hc)⟩, rfl⟩

theorem Commented.exists_thinned {kind : TokenKind} (c : Commented kind) (hk : kind ≠ .blockComment)
    (h : Thinned us c.tokens) : ∃ cs : Comments, (⟨c.toTokenOf, cs⟩ : Commented kind).tokens = us := by
  obtain ⟨vs, ws, rfl, hv, hw⟩ := h.exists_of_append
  obtain ⟨cs, rfl⟩ := c.comments.exists_thinned hv
  obtain rfl := hw.eq_of_forall (List.forall_mem_singleton.2 (c.isComment_eq_false hk))
  exact ⟨cs, rfl⟩

/-! ## Types -/

namespace FieldType

theorem Key.exists_thinned (k : Key) (h : Thinned us k.tokens) : ∃ l : Key, l.tokens = us ∧ l.type = k.type := by
  obtain ⟨cs, rfl⟩ := k.toCommented.exists_thinned (by decide) h
  exact ⟨⟨⟨k.toTokenOf, cs⟩, k.base, k.name_eq⟩, rfl, rfl⟩

theorem Suffix.exists_thinned (s : Suffix) (h : Thinned us s.tokens) :
    ∃ r : Suffix, r.tokens = us ∧ r.closing.token = s.closing.token := by
  obtain ⟨vs, rfl, hv⟩ := h.exists_of_cons (s.opening.isComment_eq_false (by decide))
  obtain ⟨cs, rfl⟩ := s.closing.exists_thinned (by decide) hv
  exact ⟨⟨s.opening, ⟨s.closing.toTokenOf, cs⟩⟩, rfl, rfl⟩

/-- The tokens of a type without some comments are those of the same type. -/
theorem Derivation.exists_thinned (d : Derivation) (h : Thinned us d.tokens) :
    ∃ e : Derivation, e.tokens = us ∧ e.type = d.type := by
  induction d generalizing us with
  | name word =>
    obtain ⟨cs, rfl⟩ := word.exists_thinned (by decide) h
    exact ⟨.name ⟨word.toTokenOf, cs⟩, rfl, rfl⟩
  | map word opening key comma value closing ih =>
    obtain ⟨_, _, rfl, h₁, hclosing⟩ := h.exists_of_append
    obtain ⟨_, _, rfl, h₂, hvalue⟩ := h₁.exists_of_append
    obtain ⟨_, _, rfl, h₃, hcomma⟩ := h₂.exists_of_append
    obtain ⟨_, _, rfl, h₄, hkey⟩ := h₃.exists_of_append
    obtain ⟨_, _, rfl, hword, hopening⟩ := h₄.exists_of_append
    obtain ⟨wordComments, rfl⟩ := word.exists_thinned (by decide) hword
    obtain ⟨openingComments, rfl⟩ := opening.exists_thinned (by decide) hopening
    obtain ⟨k, rfl, hk⟩ := key.exists_thinned hkey
    obtain ⟨commaComments, rfl⟩ := comma.exists_thinned (by decide) hcomma
    obtain ⟨v, rfl, hv⟩ := ih hvalue
    obtain ⟨closingComments, rfl⟩ := closing.exists_thinned (by decide) hclosing
    refine ⟨.map ⟨word.toTokenOf, wordComments⟩ ⟨opening.toTokenOf, openingComments⟩ k
      ⟨comma.toTokenOf, commaComments⟩ v ⟨closing.toTokenOf, closingComments⟩, rfl, ?_⟩
    rw [type, hk, hv]
    rfl
  | array word opening element closing ih =>
    obtain ⟨_, _, rfl, h₁, hclosing⟩ := h.exists_of_append
    obtain ⟨_, _, rfl, h₂, helement⟩ := h₁.exists_of_append
    obtain ⟨_, _, rfl, hword, hopening⟩ := h₂.exists_of_append
    obtain ⟨wordComments, rfl⟩ := word.exists_thinned (by decide) hword
    obtain ⟨openingComments, rfl⟩ := opening.exists_thinned (by decide) hopening
    obtain ⟨e, rfl, he⟩ := ih helement
    obtain ⟨closingComments, rfl⟩ := closing.exists_thinned (by decide) hclosing
    refine ⟨.array ⟨word.toTokenOf, wordComments⟩ ⟨opening.toTokenOf, openingComments⟩ e
      ⟨closing.toTokenOf, closingComments⟩, rfl, ?_⟩
    rw [type, he]
    rfl
  | suffix element brackets ih =>
    obtain ⟨_, _, rfl, helement, hbrackets⟩ := h.exists_of_append
    obtain ⟨e, rfl, he⟩ := ih helement
    obtain ⟨r, rfl, hr⟩ := brackets.exists_thinned hbrackets
    refine ⟨.suffix e r, rfl, ?_⟩
    rw [type, type, he, hr]

end FieldType

/-! ## Attributes -/

namespace Attribute

theorem Argument.exists_thinned {keyword : String} (a : Option (Argument keyword))
    (h : Thinned us (a.elim [] tokens)) :
    ∃ b : Option (Argument keyword), b.elim [] tokens = us ∧ value b = value a := by
  cases a with
  | none => exact ⟨none, by cases h with | nil => rfl, rfl⟩
  | some a =>
    have hliteral : a.literal.isComment = false := by
      rcases a.kind_eq with hk | hk | hk <;> simp [Token.isComment, hk]
    obtain ⟨_, rfl, h₁⟩ := h.exists_of_cons (a.opening.isComment_eq_false (by decide))
    obtain ⟨_, rfl, hclosing⟩ := h₁.exists_of_cons hliteral
    obtain ⟨cs, rfl⟩ := a.closing.exists_thinned (by decide) hclosing
    exact ⟨some ⟨a.opening, a.literal, a.kind_eq, ⟨a.closing.toTokenOf, cs⟩⟩, rfl, rfl⟩

/-- The tokens of an attribute without some comments are those of the same attribute. -/
theorem Derivation.exists_thinned (d : Derivation) (h : Thinned us d.tokens) :
    ∃ e : Derivation, e.tokens = us ∧ e.value = d.value := by
  obtain ⟨_, rfl, h₁⟩ := h.exists_of_cons (d.opening.isComment_eq_false (by decide))
  obtain ⟨_, _, rfl, h₂, hclosing⟩ := h₁.exists_of_append
  obtain ⟨_, _, rfl, hname, hargument⟩ := h₂.exists_of_append
  obtain ⟨nameComments, rfl⟩ := d.name.exists_thinned (by decide) hname
  obtain ⟨a, rfl, ha⟩ := Argument.exists_thinned d.argument hargument
  obtain ⟨closingComments, rfl⟩ := d.closing.exists_thinned (by decide) hclosing
  exact ⟨⟨d.opening, ⟨d.name.toTokenOf, nameComments⟩, a, ⟨d.closing.toTokenOf, closingComments⟩, d.value,
    by rw [ha]; exact d.known⟩, rfl, rfl⟩

end Attribute

/-! ## Fields -/

/-- A field without its documentation. -/
def Field.undocumented (f : Field) : Field := { f with documentation := "" }

theorem Numeral.exists_thinned (m : Numeral) (h : Thinned us m.tokens) :
    ∃ n : Numeral, n.tokens = us ∧ n.value = m.value := by
  obtain ⟨cs, rfl⟩ := m.toCommented.exists_thinned (by decide) h
  exact ⟨⟨⟨m.toTokenOf, cs⟩, m.value, m.value_eq⟩, rfl, rfl⟩

namespace Field

variable {kind : DefinitionKind}

theorem Name.exists_thinned (n : Name) (h : Thinned us n.tokens) :
    ∃ m : Name, m.tokens = us ∧ m.token = n.token := by
  obtain ⟨cs, rfl⟩ := n.toCommented.exists_thinned (by decide) h
  exact ⟨⟨⟨n.toTokenOf, cs⟩, n.free⟩, rfl, rfl⟩

theorem Body.exists_thinned (b : Body kind) (h : Thinned us b.tokens) : ∃ c : Body kind, c.tokens = us ∧
    c.name.token = b.name.token ∧ c.value = b.value ∧ ∀ owner, c.type owner = b.type owner := by
  cases b with
  | enum name equals constant =>
    obtain ⟨_, _, rfl, h₁, hconstant⟩ := h.exists_of_append
    obtain ⟨_, _, rfl, hname, hequals⟩ := h₁.exists_of_append
    obtain ⟨n, rfl, hn⟩ := name.exists_thinned hname
    obtain ⟨cs, rfl⟩ := equals.exists_thinned (by decide) hequals
    obtain ⟨m, rfl, hm⟩ := constant.exists_thinned hconstant
    exact ⟨.enum n ⟨equals.toTokenOf, cs⟩ m, rfl, hn, hm, fun _ => rfl⟩
  | struct type name =>
    obtain ⟨_, _, rfl, htype, hname⟩ := h.exists_of_append
    obtain ⟨t, rfl, ht⟩ := type.exists_thinned htype
    obtain ⟨n, rfl, hn⟩ := name.exists_thinned hname
    exact ⟨.struct t n, rfl, hn, rfl, fun _ => ht⟩
  | message index hyphen greater type name =>
    obtain ⟨_, _, rfl, h₁, hname⟩ := h.exists_of_append
    obtain ⟨_, _, rfl, h₂, htype⟩ := h₁.exists_of_append
    obtain ⟨_, _, rfl, h₃, hgreater⟩ := h₂.exists_of_append
    obtain ⟨_, _, rfl, hindex, hhyphen⟩ := h₃.exists_of_append
    obtain ⟨m, rfl, hm⟩ := index.exists_thinned hindex
    obtain ⟨hyphenComments, rfl⟩ := hyphen.exists_thinned (by decide) hhyphen
    obtain ⟨greaterComments, rfl⟩ := greater.exists_thinned (by decide) hgreater
    obtain ⟨t, rfl, ht⟩ := type.exists_thinned htype
    obtain ⟨n, rfl, hn⟩ := name.exists_thinned hname
    exact ⟨.message m ⟨hyphen.toTokenOf, hyphenComments⟩ ⟨greater.toTokenOf, greaterComments⟩ t n, rfl, hn,
      hm, fun _ => ht⟩

/-- The attribute of a field, if there is one, stays without some comments. -/
theorem exists_thinned_remark (a : Option Attribute.Derivation)
    (h : Thinned us (a.elim [] Attribute.Derivation.tokens)) : ∃ b : Option Attribute.Derivation,
      b.elim [] Attribute.Derivation.tokens = us ∧
        b.map Attribute.Derivation.value = a.map Attribute.Derivation.value := by
  cases a with
  | none => exact ⟨none, by cases h with | nil => rfl, rfl⟩
  | some a =>
    obtain ⟨b, rfl, hb⟩ := a.exists_thinned h
    exact ⟨some b, rfl, congrArg some hb⟩

/-- The tokens of a field without some comments are those of the same field with other documentation. -/
theorem Derivation.exists_thinned (d : Derivation kind) (owner : Token) (h : Thinned us d.tokens) :
    ∃ e : Derivation kind, e.tokens = us ∧ (e.field owner).undocumented = (d.field owner).undocumented := by
  obtain ⟨_, _, rfl, hcomments, h₁⟩ := h.exists_of_append
  obtain ⟨_, _, rfl, h₂, hclosing⟩ := h₁.exists_of_append
  obtain ⟨_, _, rfl, hremark, hbody⟩ := h₂.exists_of_append
  obtain ⟨cs, rfl⟩ := d.comments.exists_thinned hcomments
  obtain ⟨a, rfl, ha⟩ := exists_thinned_remark d.remark hremark
  obtain ⟨b, rfl, hname, hvalue, htype⟩ := d.body.exists_thinned hbody
  obtain ⟨ds, rfl⟩ := d.closing.exists_thinned (by decide) hclosing
  have hmaximal : a = none → ∀ t ∈ b.tokens.head?, t.isComment = false := by
    rintro rfl
    have hd := d.maximal (Option.map_eq_none_iff.1 ha.symm)
    rwa [hbody.head?_eq hd]
  refine ⟨⟨cs, a, b, ⟨d.closing.toTokenOf, ds⟩, hmaximal⟩, rfl, ?_⟩
  simp only [field, undocumented, ha, hname, hvalue, htype]

end Field

/-! ## Definitions -/

theorem DefinitionKind.isComment_word {kind : DefinitionKind} (t : TokenOf kind.word) : t.token.isComment = false :=
  t.isComment_eq_false (by cases kind <;> decide)

namespace Definition

/-- A definition without its documentation and that of its fields. -/
def undocumented (d : Definition) : Definition :=
  { d with documentation := "", fields := d.fields.map Field.undocumented }

theorem references_undocumented (d : Definition) : d.undocumented.references = d.references := by
  simp only [references, undocumented, List.flatMap_map]
  rfl

theorem map_name_undocumented (ds : List Definition) : (ds.map undocumented).map name = ds.map name := by
  rw [List.map_map]
  rfl

/-- Documentation has no part in whether type names are defined. -/
theorem resolve_map_undocumented (ds : List Definition) : resolve (ds.map undocumented) = resolve ds := by
  rw [resolve, resolve, map_name_undocumented, List.flatMap_map]
  simp only [references_undocumented]

/-- The tokens of a definition without some comments are those of the same definition with other documentation. -/
theorem Derivation.exists_thinned (d : Derivation) (h : Thinned us d.tokens) :
    ∃ e : Derivation, e.tokens = us ∧ e.definition.undocumented = d.definition.undocumented := by
  have hmodifier : ∀ t ∈ d.modifierTokens, t.isComment = false := by
    intro t ht
    cases hm : d.modifier with
    | none => simp [modifierTokens, hm] at ht
    | some m =>
      obtain rfl : t = m.token := by simpa [modifierTokens, hm] using ht
      exact m.isComment_eq_false (by decide)
  obtain ⟨_, _, rfl, hcomments, h₁⟩ := h.exists_of_append
  obtain ⟨_, _, rfl, hremarks, h₂⟩ := h₁.exists_of_append
  obtain ⟨_, _, rfl, hm, h₃⟩ := h₂.exists_of_append
  obtain rfl := hm.eq_of_forall hmodifier
  obtain ⟨_, rfl, h₄⟩ := h₃.exists_of_cons (DefinitionKind.isComment_word d.word)
  obtain ⟨_, _, rfl, h₅, hclosing⟩ := h₄.exists_of_append
  obtain ⟨_, _, rfl, h₆, hfields⟩ := h₅.exists_of_append
  obtain ⟨_, _, rfl, hname, hopening⟩ := h₆.exists_of_append
  obtain ⟨cs, rfl⟩ := d.comments.exists_thinned hcomments
  obtain ⟨remarks, rfl, hr⟩ := Thinned.partwise.exists_of_flatMap _ _
    (fun (a : Attribute.Derivation) _ _ h => a.exists_thinned h) hremarks
  obtain ⟨nameComments, rfl⟩ := d.name.exists_thinned (by decide) hname
  obtain ⟨openingComments, rfl⟩ := d.opening.exists_thinned (by decide) hopening
  obtain ⟨fields, rfl, hf⟩ := Thinned.partwise.exists_of_flatMap _ _
    (fun (f : Field.Derivation d.kind) _ _ h => f.exists_thinned d.name.token h) hfields
  obtain ⟨closingComments, rfl⟩ := d.closing.exists_thinned (by decide) hclosing
  refine ⟨⟨cs, remarks, d.modifier, d.kind, d.word, ⟨d.name.toTokenOf, nameComments⟩,
    ⟨d.opening.toTokenOf, openingComments⟩, fields, ⟨d.closing.toTokenOf, closingComments⟩⟩, rfl, ?_⟩
  simp only [definition, undocumented, hr, List.map_map]
  exact congrArg _ hf

end Definition

/-! ## Schemas -/

namespace Schema

/-- A schema without documentation. -/
def undocumented (s : Schema) : Schema := { s with definitions := s.definitions.map Definition.undocumented }

/-- Comments only ever change documentation: without some of the comments in its tokens, a schema is still read, and it
is the same apart from documentation. -/
theorem exists_ofTokens_of_thinned {tokens : List Token} {ns : String} {s : Schema} (h : ofTokens tokens ns = .ok s)
    (hu : Thinned us tokens) : ∃ t, ofTokens us ns = .ok t ∧ t.undocumented = s.undocumented := by
  obtain ⟨d, hd, rfl⟩ := exists_derivation h
  have hthin := hu.beforeEnd
  rw [← hd] at hthin
  obtain ⟨_, _, hus, hdefinitions, htrailing⟩ := hthin.exists_of_append
  obtain ⟨es, rfl, hes⟩ := Thinned.partwise.exists_of_flatMap _ _
    (fun (e : Definition.Derivation) _ _ h => e.exists_thinned h) hdefinitions
  obtain ⟨cs, rfl⟩ := d.trailing.exists_thinned htrailing
  obtain ⟨hn, hr, _⟩ := (ofTokens_eq_ok_iff_of_definitions hd.symm).1 h
  have hdefs : (es.map Definition.Derivation.definition).map Definition.undocumented =
      (d.definitions.map Definition.Derivation.definition).map Definition.undocumented := by
    rw [List.map_map, List.map_map]
    exact hes
  refine ⟨_, (ofTokens_eq_ok_iff_of_definitions hus).2 ⟨?_, ?_, rfl⟩, ?_⟩
  · rwa [← Definition.Derivation.map_name_definition, ← Definition.map_name_undocumented, hdefs,
      Definition.map_name_undocumented, Definition.Derivation.map_name_definition]
  · rw [← Definition.resolve_map_undocumented, hdefs, Definition.resolve_map_undocumented, hr]
  · simp only [undocumented, Derivation.schema, hdefs]

/-- A struct with two comments in front of it and before its closing brace, without the second and the fourth. -/
theorem exists_ofTokens_of_thinned_struct :
    let kept := (TokenOf.placeless .blockComment "kept").token
    let dropped := (TokenOf.placeless .blockComment "dropped").token
    let cs : Comments := ⟨[kept, dropped], by decide⟩
    let d := Definition.Derivation.ofNames "A" "A"
    let tokens := { d with comments := cs, closing := d.closing.after cs }.tokens
    let us := tokens.filter fun t => !t.isComment || decide (t.lexeme = "kept")
    let s : Schema := ⟨"N", [{ d.definition with documentation := "dropped" }]⟩
    ofTokens tokens "N" = .ok s ∧ Thinned us tokens ∧
      ∃ t, ofTokens us "N" = .ok t ∧ t.undocumented = s.undocumented := by
  intro kept dropped cs d tokens us s
  have h : ofTokens tokens "N" = .ok s := by decide +kernel
  have hu : Thinned us tokens := Token.thinned_filter (fun t => decide (t.lexeme = "kept")) tokens
  exact ⟨h, hu, exists_ofTokens_of_thinned h hu⟩

end Schema

end SchemaLang
