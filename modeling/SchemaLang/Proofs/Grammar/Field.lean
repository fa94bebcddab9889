import SchemaLang.Definition.Reader
import SchemaLang.Proofs.Grammar.Attribute
import SchemaLang.Proofs.Grammar.FieldType

/-!
# Derivations: fields

The grammar of fields, by the kind of the definition around them.

    field  = C* attribute? body C* ';'
    enum:    body = C* Identifier C* '=' C* Number
    struct:  body = type C* Identifier
    message: body = C* Number C* '-' C* '>' type C* Identifier

* A number is a signed 32-bit integer (`Numeral`), and no name is spelled like a reserved word (`Field.Name`).
* Without an attribute all comments at the front are those of the field, so that the last one is its documentation
  (`Field.Derivation.maximal`).
* Reading gives exactly the derived fields (`exists_of_read?`, `read?_tokens`).
-/

namespace SchemaLang

open TokenReader

/-- A number token for a signed 32-bit integer. -/
structure Numeral extends Commented .number where
  value : Int
  value_eq : Text.signed32? token.lexeme.toList = some value

namespace Field

/-- An identifier that may name a field. -/
structure Name extends Commented .identifier where
  free : isKeyword token.lexeme = false

/-- What a field says, by the kind of its definition. -/
inductive Body : DefinitionKind → Type where
  | enum (name : Name) (equals : Commented .equals) (constant : Numeral) : Body .enum
  | struct (type : FieldType.Derivation) (name : Name) : Body .struct
  | message (index : Numeral) (hyphen : Commented .hyphen) (greater : Commented .greater) (type : FieldType.Derivation)
      (name : Name) : Body .message

namespace Body

variable {kind : DefinitionKind}

/-- The tokens of a body in order. -/
def tokens : Body kind → List Token
  | enum name equals constant => name.tokens ++ equals.tokens ++ constant.tokens
  | struct type name => type.tokens ++ name.tokens
  | message index hyphen greater type name =>
    index.tokens ++ hyphen.tokens ++ greater.tokens ++ type.tokens ++ name.tokens

/-- The name of the field. -/
def name : Body kind → Name
  | enum name _ _ => name
  | struct _ name => name
  | message _ _ _ _ name => name

/-- The type of the field. A constant has the type of all constants, at the place of the enum's name. -/
def type (owner : Token) : Body kind → FieldType
  | enum _ _ _ => .scalar .uint32 owner.span
  | struct type _ => type.type
  | message _ _ _ type _ => type.type

/-- The number of the field; zero in a struct. -/
def value : Body kind → Int
  | enum _ _ constant => constant.value
  | struct _ _ => 0
  | message index _ _ _ _ => index.value

/-- The tokens in the body that name a definition, in order. -/
def typeNames : Body kind → List Token
  | enum _ _ _ => []
  | struct type _ => type.typeNames
  | message _ _ _ type _ => type.typeNames

/-- A body starts with a word or a number. -/
theorem startsWith (b : Body kind) (rest : List Token) :
    StartsWith [.identifier, .map, .array, .number] (b.tokens ++ rest) := by
  cases b with
  | enum name => simpa only [tokens, List.append_assoc] using (name.startsWith _).mono
  | struct type => simpa only [tokens, List.append_assoc] using (type.startsWith _).mono
  | message index => simpa only [tokens, List.append_assoc] using (index.startsWith _).mono

/-- No token of a body ends the file. -/
theorem kind_ne_of_mem {b : Body kind} {t : Token} (h : t ∈ b.tokens) : t.kind ≠ .endOfFile := by
  cases b with
  | enum name equals constant =>
    simp only [tokens, List.mem_append] at h
    rcases h with (h | h) | h
    · exact name.kind_ne_endOfFile h
    · exact equals.kind_ne_endOfFile h
    · exact constant.kind_ne_endOfFile h
  | struct type name =>
    simp only [tokens, List.mem_append] at h
    rcases h with h | h
    · exact FieldType.Derivation.kind_ne_of_mem h
    · exact name.kind_ne_endOfFile h
  | message index hyphen greater type name =>
    simp only [tokens, List.mem_append] at h
    rcases h with (((h | h) | h) | h) | h
    · exact index.kind_ne_endOfFile h
    · exact hyphen.kind_ne_endOfFile h
    · exact greater.kind_ne_endOfFile h
    · exact FieldType.Derivation.kind_ne_of_mem h
    · exact name.kind_ne_endOfFile h

theorem leaves_type (b : Body kind) (owner : Token) :
    (b.type owner).leaves = b.typeNames.map fun t => (t.lexeme, t.span) := by
  cases b with
  | enum => simp [type, typeNames, FieldType.leaves]
  | struct type => exact type.leaves_type
  | message _ _ _ type => exact type.leaves_type

theorem typeNames_sublist (b : Body kind) : b.typeNames.Sublist b.tokens := by
  cases b with
  | enum => exact List.nil_sublist _
  | struct type => exact type.typeNames_sublist.trans (List.sublist_append_left _ _)
  | message _ _ _ type =>
    exact (type.typeNames_sublist.trans (List.sublist_append_right _ _)).trans (List.sublist_append_left _ _)

end Body

/-- A derivation of a field. -/
structure Derivation (kind : DefinitionKind) where
  comments : Comments
  remark : Option Attribute.Derivation
  body : Body kind
  closing : Commented .semicolon
  maximal : remark = none → ∀ t ∈ body.tokens.head?, t.isComment = false

namespace Derivation

variable {kind : DefinitionKind}

/-- The tokens after the comments at the front. -/
def core (d : Derivation kind) : List Token :=
  d.remark.elim [] Attribute.Derivation.tokens ++ d.body.tokens ++ d.closing.tokens

/-- The tokens of a derivation in order. -/
def tokens (d : Derivation kind) : List Token := d.comments.tokens ++ d.core

/-- The field that a derivation derives, in a definition with the given name token. Of the attribute only a deprecation
is kept. -/
def field (d : Derivation kind) (owner : Token) : Field where
  name := d.body.name.token.lexeme
  type := d.body.type owner
  span := d.body.name.token.span.combine d.closing.token.span
  deprecated := (d.remark.map Attribute.Derivation.value).filter Attribute.isDeprecated
  value := d.body.value
  documentation := d.comments.documentation

/-- No token of a field ends the file. -/
theorem kind_ne_of_mem {d : Derivation kind} {t : Token} (h : t ∈ d.tokens) : t.kind ≠ .endOfFile := by
  simp only [tokens, core, List.mem_append] at h
  rcases h with h | (h | h) | h
  · simp [Comments.isComment_eq h]
  · cases hr : d.remark with
    | none => simp [hr] at h
    | some a => exact Attribute.Derivation.kind_ne_of_mem (by simpa [hr] using h)
  · exact Body.kind_ne_of_mem h
  · exact d.closing.kind_ne_endOfFile h

/-- What comes after the comments starts neither with a comment nor with a closing brace. -/
theorem exists_core (d : Derivation kind) (rest : List Token) :
    ∃ t us, d.core ++ rest = t :: us ∧ t.isComment = false ∧ t.kind ≠ .closeBrace := by
  cases hr : d.remark with
  | some a =>
    obtain ⟨us, ha⟩ := a.exists_cons (d.body.tokens ++ (d.closing.tokens ++ rest))
    exact ⟨a.opening.token, us, by simpa [core, hr] using ha, a.opening.isComment_eq_false (by decide),
      by simp [a.opening.kind_eq]⟩
  | none =>
    obtain ⟨t, us, hb, ht⟩ := (d.body.startsWith []).exists_ne .closeBrace
    rw [List.append_nil] at hb
    exact ⟨t, us ++ d.closing.tokens ++ rest, by simp [core, hr, hb], d.maximal hr t (by simp [hb]), ht⟩

end Derivation

/-! ## Reading derives -/

variable {ts rest : List Token}

theorem exists_of_readInteger {hint : String} {n : Int} (h : readInteger hint ts = .done n rest) :
    ∃ m : Numeral, m.value = n ∧ ts = m.tokens ++ rest := by
  obtain ⟨_, mid, ht, h₁⟩ := bind_eq_done_iff.1 h
  obtain ⟨number, rfl, rfl⟩ := exists_of_expect ht
  cases hn : Text.signed32? number.token.lexeme.toList with
  | none =>
    simp only [hn] at h₁
    exact absurd h₁ fail_ne_done
  | some m =>
    simp only [hn] at h₁
    obtain ⟨rfl, rfl⟩ := pure_eq_done_iff.1 h₁
    exact ⟨⟨number, m, hn⟩, rfl, rfl⟩

theorem readInteger_tokens (hint : String) (m : Numeral) (rest : List Token) :
    readInteger hint (m.tokens ++ rest) = .done m.value rest := by
  simp [readInteger, bind_apply, expect_tokens, m.value_eq, pure_apply]

theorem isReserved_identifier {t : Token} (h : t.kind = .identifier) :
    isReserved t = SchemaLang.isKeyword t.lexeme := by
  simp [isReserved, h, TokenKind.isKeyword, keywords]

theorem exists_of_readName {t : Token} (h : readName ts = .done t rest) :
    ∃ n : Name, n.token = t ∧ ts = n.tokens ++ rest := by
  obtain ⟨_, ts₁, hs, h₁⟩ := bind_eq_done_iff.1 h
  obtain ⟨cs, rfl, hc⟩ := exists_of_skipComments hs
  obtain ⟨candidate, ts₂, hk, h₂⟩ := bind_eq_done_iff.1 h₁
  obtain ⟨mid, rfl, rfl⟩ := current_eq_done_iff.1 hk
  split at h₂
  · exact absurd h₂ fail_ne_done
  · rename_i hr
    have he : expect .identifier none (candidate :: mid) = take [.identifier] none (candidate :: mid) := by
      have hs : skipComments (candidate :: mid) = .done () (candidate :: mid) :=
        skipComments_tokens Comments.none (hc candidate (by simp)) mid
      simp [expect, bind_apply, hs]
    rw [he] at h₂
    obtain ⟨ht, hi⟩ := take_eq_done_iff.1 h₂
    obtain ⟨rfl, rfl⟩ := List.cons.inj ht
    have hi := List.mem_singleton.1 hi
    rw [isReserved_identifier hi, Bool.not_eq_true] at hr
    exact ⟨⟨⟨⟨candidate, hi⟩, cs⟩, hr⟩, rfl, by simp [Commented.tokens]⟩

theorem readName_tokens (n : Name) (rest : List Token) : readName (n.tokens ++ rest) = .done n.token rest := by
  have hs := skipComments_tokens n.comments (n.isComment_eq_false (by decide)) rest
  have hc : current (n.token :: rest) = .done n.token (n.token :: rest) := rfl
  simp [readName, bind_apply, Commented.tokens, hs, hc, isReserved_identifier n.kind_eq, n.free,
    expect_token n.toTokenOf]

/-- The parts of a body. In a message the index comes before the type, in an enum the number after the name. -/
theorem exists_of_readBody {kind : DefinitionKind} {owner name : Token} {type : FieldType} {index value : Int}
    {ts₁ ts₂ ts₃ : List Token} (hi : readIndex kind ts = .done index ts₁)
    (ht : readType (m := TokenReader) owner kind ts₁ = .done type ts₂) (hn : readName ts₂ = .done name ts₃)
    (hv : readConstant index kind ts₃ = .done value rest) :
    ∃ b : Body kind, b.name.token = name ∧ b.type owner = type ∧ b.value = value ∧ ts = b.tokens ++ rest := by
  obtain ⟨n, rfl, rfl⟩ := exists_of_readName hn
  cases kind with
  | enum =>
    obtain ⟨rfl, rfl⟩ := pure_eq_done_iff.1 hi
    obtain ⟨rfl, rfl⟩ := pure_eq_done_iff.1 ht
    obtain ⟨_, mid, he, hm⟩ := bind_eq_done_iff.1 hv
    obtain ⟨equals, rfl, rfl⟩ := exists_of_expect he
    obtain ⟨constant, rfl, rfl⟩ := exists_of_readInteger hm
    exact ⟨.enum n equals constant, rfl, rfl, rfl, by simp [Body.tokens]⟩
  | struct =>
    obtain ⟨rfl, rfl⟩ := pure_eq_done_iff.1 hi
    obtain ⟨d, rfl, rfl⟩ := FieldType.derives_read ht
    obtain ⟨rfl, rfl⟩ := pure_eq_done_iff.1 hv
    exact ⟨.struct d n, rfl, rfl, rfl, by simp [Body.tokens]⟩
  | message =>
    obtain ⟨_, mid, hm, h₁⟩ := bind_eq_done_iff.1 hi
    obtain ⟨number, rfl, rfl⟩ := exists_of_readInteger hm
    obtain ⟨_, mid₁, hh, h₂⟩ := bind_eq_done_iff.1 h₁
    obtain ⟨hyphen, rfl, rfl⟩ := exists_of_expect hh
    obtain ⟨_, mid₂, hg, h₃⟩ := bind_eq_done_iff.1 h₂
    obtain ⟨greater, rfl, rfl⟩ := exists_of_expect hg
    obtain ⟨rfl, rfl⟩ := pure_eq_done_iff.1 h₃
    obtain ⟨d, rfl, rfl⟩ := FieldType.derives_read ht
    obtain ⟨rfl, rfl⟩ := pure_eq_done_iff.1 hv
    exact ⟨.message number hyphen greater d n, rfl, rfl, rfl, by simp [Body.tokens]⟩

/-- Whatever is read as a field has a derivation from the tokens that were taken. -/
theorem exists_of_read? {kind : DefinitionKind} {owner : Token} {f : Field}
    (h : read? (m := TokenReader) kind owner ts = .done (some f) rest) :
    ∃ d : Derivation kind, d.field owner = f ∧ ts = d.tokens ++ rest := by
  obtain ⟨cs, t, us, rfl, hmax, h₂⟩ := exists_of_documented h
  split at h₂
  · simp [pure_eq_done_iff] at h₂
  · obtain ⟨g, ts₃, hf, h₃⟩ := bind_eq_done_iff.1 h₂
    obtain ⟨he, rfl⟩ := pure_eq_done_iff.1 h₃
    obtain rfl := Option.some.inj he
    obtain ⟨remark, us₁, hr, h₄⟩ := bind_eq_done_iff.1 hf
    obtain ⟨index, us₂, hi, h₅⟩ := bind_eq_done_iff.1 h₄
    obtain ⟨type, us₃, ht, h₆⟩ := bind_eq_done_iff.1 h₅
    obtain ⟨name, us₄, hn, h₇⟩ := bind_eq_done_iff.1 h₆
    obtain ⟨value, us₅, hv, h₈⟩ := bind_eq_done_iff.1 h₇
    obtain ⟨_, us₆, hcl, h₉⟩ := bind_eq_done_iff.1 h₈
    obtain ⟨closing, rfl, rfl⟩ := exists_of_expect hcl
    obtain ⟨rfl, rfl⟩ := pure_eq_done_iff.1 h₉
    obtain ⟨b, rfl, rfl, rfl, rfl⟩ := exists_of_readBody hi ht hn hv
    cases remark with
    | none =>
      obtain ⟨hb, _⟩ := Attribute.eq_of_read?_none hr
      have hfirst : ∀ u ∈ b.tokens.head?, u.isComment = false := by
        intro u hu
        have he : (t :: us).head? = some u := by simp [hb, List.head?_append, Option.mem_def.1 hu]
        obtain rfl := Option.some.inj he
        exact hmax
      exact ⟨⟨cs, none, b, closing, fun _ => hfirst⟩, rfl, by simp [Derivation.tokens, Derivation.core, hb]⟩
    | some a =>
      obtain ⟨d, rfl, hd⟩ := Attribute.exists_of_read? hr
      exact ⟨⟨cs, some d, b, closing, by simp⟩, rfl, by simp [Derivation.tokens, Derivation.core, hd]⟩

/-- Where no field is read, a closing brace comes after the comments. -/
theorem exists_of_read?_none {kind : DefinitionKind} {owner : Token}
    (h : read? (m := TokenReader) kind owner ts = .done none rest) :
    ∃ cs : Comments, ts = cs.tokens ++ rest := by
  obtain ⟨cs, t, us, rfl, _, h₂⟩ := exists_of_documented h
  split at h₂
  · exact ⟨cs, by rw [(pure_eq_done_iff.1 h₂).2]⟩
  · exact absurd h₂ (bind_ne_none fun _ _ => some_ne_none)

/-! ## Derivations are read -/

theorem read_tokens {kind : DefinitionKind} (d : Derivation kind) (owner : Token) (rest : List Token) :
    read (m := TokenReader) kind owner d.comments.documentation (d.core ++ rest) = .done (d.field owner) rest := by
  have hr : ∀ us, Attribute.read? (d.remark.elim [] Attribute.Derivation.tokens ++ (d.body.tokens ++ us)) =
      .done (d.remark.map Attribute.Derivation.value) (d.body.tokens ++ us) := by
    intro us
    cases d.remark with
    | none =>
      obtain ⟨t, vs, hb, ht⟩ := (d.body.startsWith us).exists_ne .openBracket
      simp [hb, Attribute.read?_of_kind_ne ht]
    | some a => exact Attribute.read?_tokens a _
  obtain ⟨comments, remark, body, closing, maximal⟩ := d
  simp only [Derivation.core, read, liftM_eq, bind_apply, List.append_assoc] at hr ⊢
  rw [hr]
  cases body with
  | enum name equals constant =>
    simp [Body.tokens, readIndex, readType, readConstant, bind_apply, pure_apply, readName_tokens, expect_tokens,
      readInteger_tokens, Derivation.field, Body.name, Body.type, Body.value]
  | struct type name =>
    have ht := FieldType.read_tokens type ((name.startsWith (closing.tokens ++ rest)).exists_ne _)
    simp [Body.tokens, readIndex, readType, readConstant, pure_apply, readName_tokens, expect_tokens, ht,
      Derivation.field, Body.name, Body.type, Body.value]
  | message index hyphen greater type name =>
    have ht := FieldType.read_tokens type ((name.startsWith (closing.tokens ++ rest)).exists_ne _)
    simp [Body.tokens, readIndex, readType, readConstant, bind_apply, pure_apply, readName_tokens, expect_tokens, ht,
      readInteger_tokens, Derivation.field, Body.name, Body.type, Body.value]

/-- A derivation is read as its field, whatever follows. -/
theorem read?_tokens {kind : DefinitionKind} (owner : Token) (d : Derivation kind) (rest : List Token) :
    read? (m := TokenReader) kind owner (d.tokens ++ rest) = .done (some (d.field owner)) rest := by
  obtain ⟨t, us, hc, ht, hk⟩ := d.exists_core rest
  have hr := read_tokens d owner rest
  rw [hc] at hr
  rw [Derivation.tokens, List.append_assoc, hc]
  simp [read?, bind_apply, lastComment_tokens d.comments ht, current, hk, hr, pure_apply]

/-- At a closing brace there is no further field. -/
theorem read?_of_closeBrace {kind : DefinitionKind} (owner : Token) (closing : Commented .closeBrace)
    (rest : List Token) :
    read? (m := TokenReader) kind owner (closing.tokens ++ rest) = .done none (closing.token :: rest) := by
  have hc := lastComment_tokens closing.comments (closing.isComment_eq_false (by decide)) rest
  simp [read?, bind_apply, Commented.tokens, hc, current, closing.kind_eq, pure_apply]

theorem progresses_read? (kind : DefinitionKind) (owner : Token) : Progresses (read? kind owner) := by
  intro ts f rest h
  obtain ⟨d, _, rfl⟩ := exists_of_read? h
  have hl := d.closing.length_tokens
  simp only [Derivation.tokens, Derivation.core, List.length_append]
  omega

end Field

end SchemaLang
