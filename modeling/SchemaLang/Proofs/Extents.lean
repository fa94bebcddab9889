import SchemaLang.Proofs.Grammar.Definition
import SchemaLang.Proofs.Streams

/-!
# Extents

From where to where the types, fields and definitions of one source are written.

* The combined spans of a derivation go from one of its tokens to another, if its tokens are in order (`Token.Lined`): a
  type from its first token behind the comments to its last (`FieldType.Derivation.span_type`), a field from its name
  to its semicolon (`Field.Derivation.span_field`), a definition from its name to its closing brace
  (`Definition.Derivation.span_definition`).
-/

namespace SchemaLang

open Element (Lexes)
open Token (Lined)

/-! ## Types -/

namespace FieldType

namespace Derivation

/-- The first token of a type behind the comments. -/
def first : Derivation → Token
  | name word => word.token
  | map word _ _ _ _ _ => word.token
  | array word _ _ _ => word.token
  | suffix element _ => element.first

/-- The last token of a type. -/
def last : Derivation → Token
  | name word => word.token
  | map _ _ _ _ _ closing => closing.token
  | array _ _ _ closing => closing.token
  | suffix _ brackets => brackets.closing.token

/-- A type without the comments in front. -/
def uncommented : Derivation → Derivation
  | name word => name word.uncommented
  | map word opening key comma value closing => map word.uncommented opening key comma value closing
  | array word opening element closing => array word.uncommented opening element closing
  | suffix element brackets => suffix element.uncommented brackets

theorem type_uncommented (d : Derivation) : d.uncommented.type = d.type := by
  induction d with
  | name | map | array => rfl
  | suffix element brackets ih => simp only [uncommented, type, ih]

theorem tokens_uncommented_suffix (d : Derivation) : d.uncommented.tokens <:+ d.tokens := by
  have hword {kind : TokenKind} (word : Commented kind) (ts : List Token) :
      word.uncommented.tokens ++ ts <:+ word.tokens ++ ts :=
    ⟨word.comments.tokens, by rw [TokenOf.tokens_uncommented, ← List.append_assoc]; rfl⟩
  induction d with
  | name word => exact ⟨word.comments.tokens, rfl⟩
  | map word => simpa only [uncommented, tokens, List.append_assoc] using hword word _
  | array word => simpa only [uncommented, tokens, List.append_assoc] using hword word _
  | suffix element brackets ih =>
    obtain ⟨cs, hc⟩ := ih
    exact ⟨cs, by rw [uncommented, tokens, tokens, ← List.append_assoc, hc]⟩

theorem head?_uncommented (d : Derivation) : d.uncommented.tokens.head? = some d.first := by
  induction d with
  | name | map | array => rfl
  | suffix element brackets ih => rw [uncommented, tokens, List.head?_append, ih]; rfl

theorem getLast?_tokens (d : Derivation) : d.tokens.getLast? = some d.last := by
  cases d with
  | name word => exact word.getLast?_tokens []
  | map word opening key comma value closing => exact closing.getLast?_tokens _
  | array word opening element closing => exact closing.getLast?_tokens _
  | suffix element brackets =>
    rw [tokens, Suffix.tokens, List.append_cons]
    exact brackets.closing.getLast?_tokens _

theorem last_uncommented (d : Derivation) : d.uncommented.last = d.last := by
  cases d <;> rfl

theorem first_mem (d : Derivation) : d.first ∈ d.tokens :=
  d.tokens_uncommented_suffix.subset (List.mem_of_head? d.head?_uncommented)

theorem last_mem (d : Derivation) : d.last ∈ d.tokens := List.mem_of_getLast? d.getLast?_tokens

/-- A type of one source goes from its first token to its last. -/
theorem span_type {file : Nat} (d : Derivation) (h : Lined file d.tokens) :
    d.type.span = ⟨file, d.first.span.start, d.last.span.stop⟩ := by
  induction d with
  | name word =>
    have hspan : (name word).type.span = word.token.span := by
      rw [type, ofName]
      split <;> rfl
    rw [hspan]
    exact h.span_eq (by simp [tokens, Commented.tokens])
  | map word opening key comma value closing ih =>
    exact (h.pair (by simp [word.token_mem]) closing.token_mem).combine_span
  | array word opening element closing ih =>
    exact (h.pair (by simp [word.token_mem]) closing.token_mem).combine_span
  | suffix element brackets ih =>
    have hc : brackets.closing.token ∈ brackets.tokens := List.mem_cons_of_mem _ brackets.closing.token_mem
    have hfirst := (h.pair element.first_mem hc).start_le
    show element.type.span.combine brackets.closing.token.span = _
    rw [ih (h.sublist (List.sublist_append_left _ _))]
    exact (h.pair element.last_mem hc).combine_eq hfirst

/-- A type in a text covers the text of its tokens, from the first behind the comments to the last. -/
theorem exists_covers {text : String} {file : Nat} {tokens : List Token} {d : Derivation}
    (h : Token.ofText text file = .ok tokens) (hd : d.tokens <:+: tokens) : d.type.span.file = file ∧
      ∃ slice, d.type.span.Covers text.toList slice ∧ Lexes slice (d.uncommented.tokens.map Token.content) := by
  have hspan := d.span_type ((Token.lined_ofText h).sublist hd.sublist)
  obtain ⟨slice, hcovers, hlexes, _⟩ := Token.exists_covers h (d.tokens_uncommented_suffix.isInfix.trans hd)
    d.head?_uncommented d.uncommented.getLast?_tokens
  rw [d.last_uncommented, ← hspan] at hcovers
  exact ⟨by rw [hspan], slice, hcovers, hlexes⟩

end Derivation

end FieldType

/-! ## Fields and definitions -/

theorem Field.Body.name_mem {kind : DefinitionKind} (b : Field.Body kind) : b.name.token ∈ b.tokens := by
  cases b with
  | enum name => simp [Field.Body.name, Field.Body.tokens, name.token_mem]
  | struct type name => simp [Field.Body.name, Field.Body.tokens, name.token_mem]
  | message index hyphen greater type name => simp [Field.Body.name, Field.Body.tokens, name.token_mem]

namespace Field.Derivation

variable {kind : DefinitionKind}

theorem body_infix (d : Derivation kind) : d.body.tokens <:+: d.tokens :=
  ⟨d.comments.tokens ++ d.remark.elim [] Attribute.Derivation.tokens, d.closing.tokens, by simp [tokens, core]⟩

/-- The name of a field stands before its semicolon. -/
theorem ends_sublist (d : Derivation kind) : [d.body.name.token, d.closing.token].Sublist d.tokens := by
  have hname : d.body.name.token ∈
      d.comments.tokens ++ (d.remark.elim [] Attribute.Derivation.tokens ++ d.body.tokens) :=
    List.mem_append_right _ (List.mem_append_right _ d.body.name_mem)
  rw [tokens, core, ← List.append_assoc]
  exact (List.singleton_sublist.2 hname).append (List.singleton_sublist.2 d.closing.token_mem)

theorem name_mem (d : Derivation kind) : d.body.name.token ∈ d.tokens := d.ends_sublist.subset (by simp)

theorem closing_mem (d : Derivation kind) : d.closing.token ∈ d.tokens := d.ends_sublist.subset (by simp)

/-- A field of one source goes from its name to its semicolon. -/
theorem span_field {file : Nat} (d : Derivation kind) (owner : Token) (h : Lined file d.tokens) :
    (d.field owner).span = ⟨file, d.body.name.token.span.start, d.closing.token.span.stop⟩ :=
  (h.sublist d.ends_sublist).combine_span

/-- A field in a text covers the text from its name to its semicolon. -/
theorem exists_covers {text : String} {file : Nat} {tokens : List Token} {d : Derivation kind}
    (h : Token.ofText text file = .ok tokens) (hd : d.tokens <:+: tokens) (owner : Token) :
    (d.field owner).span.file = file ∧ ∃ slice, (d.field owner).span.Covers text.toList slice ∧
      d.body.name.token.lexeme.toList <+: slice ∧ [';'] <:+ slice := by
  have hspan := d.span_field owner ((Token.lined_ofText h).sublist hd.sublist)
  have hmark : d.closing.token.lexeme = String.ofList [';'] :=
    Token.lexeme_of_mark h (hd.subset d.closing_mem) (by simp [d.closing.kind_eq, Element.marks])
  obtain ⟨slice, hcovers, hname, hclosing⟩ := Token.exists_covers_pair h (d.ends_sublist.trans hd.sublist)
  rw [← hspan] at hcovers
  rw [d.closing.kind_eq, hmark, String.toList_ofList] at hclosing
  exact ⟨by rw [hspan], slice, hcovers, hname (by rw [d.body.name.kind_eq]; rfl), hclosing rfl⟩

end Field.Derivation

namespace Definition.Derivation

/-- The tokens of a definition from its name on. -/
def extent (d : Derivation) : List Token :=
  d.name.token :: (d.opening.tokens ++ d.fields.flatMap Field.Derivation.tokens ++ d.closing.tokens)

theorem extent_suffix (d : Derivation) : d.extent <:+ d.tokens := by
  refine ⟨d.comments.tokens ++ (d.remarks.flatMap Attribute.Derivation.tokens ++
    (d.modifierTokens ++ (d.word.token :: d.name.comments.tokens))), ?_⟩
  simp [extent, tokens, core, Commented.tokens]

theorem getLast?_extent (d : Derivation) : d.extent.getLast? = some d.closing.token :=
  d.closing.getLast?_tokens (d.name.token :: (d.opening.tokens ++ d.fields.flatMap Field.Derivation.tokens))

theorem name_mem_extent (d : Derivation) : d.name.token ∈ d.extent := List.mem_cons_self

theorem closing_mem_extent (d : Derivation) : d.closing.token ∈ d.extent := List.mem_of_getLast? d.getLast?_extent

/-- A definition of one source goes from its name to its closing brace. -/
theorem span_definition {file : Nat} (d : Derivation) (h : Lined file d.extent) :
    d.definition.span = ⟨file, d.name.token.span.start, d.closing.token.span.stop⟩ := by
  have he : Lined file ([d.name.token] ++ (d.opening.tokens ++ d.fields.flatMap Field.Derivation.tokens ++
    d.closing.tokens)) := h
  exact (he.pair List.mem_cons_self (List.mem_append_right _ d.closing.token_mem)).combine_span

/-- The tokens of a field stand between the name of the definition and its closing brace. -/
theorem field_infix_extent {d : Derivation} {f : Field.Derivation d.kind} (h : f ∈ d.fields) :
    f.tokens <:+: d.extent := by
  have hf : f.tokens <:+: d.fields.flatMap Field.Derivation.tokens := List.infix_of_mem_flatten (List.mem_map_of_mem h)
  exact hf.trans ⟨d.name.token :: d.opening.tokens, d.closing.tokens, by simp [extent]⟩

/-- A definition in a text covers the text of its tokens from its name to its closing brace. -/
theorem exists_covers {text : String} {file : Nat} {tokens : List Token} {d : Derivation}
    (h : Token.ofText text file = .ok tokens) (hd : d.extent <:+: tokens) : d.definition.span.file = file ∧
      ∃ slice, d.definition.span.Covers text.toList slice ∧ Lexes slice (d.extent.map Token.content) ∧
        d.name.token.lexeme.toList <+: slice ∧ ['\x7d'] <:+ slice := by
  have hspan := d.span_definition ((Token.lined_ofText h).sublist hd.sublist)
  have hmark : d.closing.token.lexeme = String.ofList ['\x7d'] :=
    Token.lexeme_of_mark h (hd.subset d.closing_mem_extent) (by simp [d.closing.kind_eq, Element.marks])
  obtain ⟨slice, hcovers, hlexes, hname, hclosing⟩ :=
    Token.exists_covers h hd (show d.name.token ∈ d.extent.head? from rfl) d.getLast?_extent
  rw [← hspan] at hcovers
  rw [d.closing.kind_eq, hmark, String.toList_ofList] at hclosing
  exact ⟨by rw [hspan], slice, hcovers, hlexes, hname (by rw [d.name.kind_eq]; rfl), hclosing rfl⟩

end Definition.Derivation

end SchemaLang
