import SchemaLang.Attribute.Reader
import SchemaLang.Proofs.Grammar.Token

/-!
# Derivations: attributes

The grammar of attributes.

    attribute = '[' C* Identifier ( '(' literal C* ')' )? C* ']'

* The literal is a string or, if the identifier is `opcode`, a number. No comment stands around the opening parenthesis.
* The identifier is the keyword of an attribute (`Attribute.Derivation.known`).
* Reading gives exactly the derived attributes (`exists_of_read?`, `read?_tokens`).
-/

namespace SchemaLang.Attribute

open TokenReader

/-- The argument of a keyword in its parentheses. -/
structure Argument (keyword : String) where
  opening : TokenOf .openParenthesis
  literal : Token
  kind_eq : literal.kind = .escapedString ∨ literal.kind = .rawString ∨ literal.kind = .number ∧ keyword = "opcode"
  closing : Commented .closeParenthesis

/-- The tokens of an argument. -/
def Argument.tokens {keyword : String} (a : Argument keyword) : List Token :=
  a.opening.token :: a.literal :: a.closing.tokens

/-- The text of an argument and whether it is a number; no argument is an empty text. -/
def Argument.value {keyword : String} : Option (Argument keyword) → String × Bool
  | none => ("", false)
  | some a => (a.literal.lexeme, a.literal.kind = .number)

/-- A derivation of an attribute. -/
structure Derivation where
  opening : TokenOf .openBracket
  name : Commented .identifier
  argument : Option (Argument name.token.lexeme)
  closing : Commented .closeBracket
  value : Attribute
  known : ofKeyword? name.token.lexeme (Argument.value argument).1 (Argument.value argument).2 = some value

/-- The tokens of a derivation in order. -/
def Derivation.tokens (d : Derivation) : List Token :=
  d.opening.token :: (d.name.tokens ++ d.argument.elim [] Argument.tokens ++ d.closing.tokens)

/-- An attribute starts with its opening bracket. -/
theorem Derivation.exists_cons (d : Derivation) (rest : List Token) :
    ∃ us, d.tokens ++ rest = d.opening.token :: us := ⟨_, List.cons_append ..⟩

theorem mem_argumentKinds_iff {keyword : String} {kind : TokenKind} : kind ∈ argumentKinds keyword ↔
    kind = .escapedString ∨ kind = .rawString ∨ kind = .number ∧ keyword = "opcode" := by
  unfold argumentKinds
  by_cases h : keyword = "opcode" <;> simp [h]

/-- No token of an attribute ends the file. -/
theorem Derivation.kind_ne_of_mem {d : Derivation} {t : Token} (h : t ∈ d.tokens) : t.kind ≠ .endOfFile := by
  simp only [tokens, List.mem_cons, List.mem_append] at h
  rcases h with rfl | (h | h) | h
  · simp [d.opening.kind_eq]
  · exact d.name.kind_ne_endOfFile h
  · cases ha : d.argument with
    | none => simp [ha] at h
    | some a =>
      simp only [ha, Option.elim_some, Argument.tokens, List.mem_cons] at h
      rcases h with rfl | rfl | h
      · simp [a.opening.kind_eq]
      · rcases a.kind_eq with hk | hk | hk <;> simp [hk]
      · exact a.closing.kind_ne_endOfFile h
  · exact d.closing.kind_ne_endOfFile h

/-! ## Reading derives -/

variable {ts rest : List Token}

theorem exists_of_readArgument {keyword : String} {value : String × Bool}
    (h : readArgument keyword ts = .done value rest) :
    ∃ a : Option (Argument keyword), Argument.value a = value ∧ ts = a.elim [] Argument.tokens ++ rest := by
  obtain ⟨o, ts₁, ho, h₁⟩ := bind_eq_done_iff.1 h
  cases o with
  | none =>
    obtain ⟨rfl, _⟩ := eq_of_eat?_none ho
    obtain ⟨rfl, rfl⟩ := pure_eq_done_iff.1 h₁
    exact ⟨none, rfl, rfl⟩
  | some o =>
    obtain ⟨opening, rfl, rfl⟩ := exists_of_eat?_some ho
    obtain ⟨literal, ts₂, hl, h₂⟩ := bind_eq_done_iff.1 h₁
    obtain ⟨rfl, hk⟩ := take_eq_done_iff.1 hl
    obtain ⟨_, ts₃, hc, h₃⟩ := bind_eq_done_iff.1 h₂
    obtain ⟨closing, rfl, rfl⟩ := exists_of_expect hc
    obtain ⟨rfl, rfl⟩ := pure_eq_done_iff.1 h₃
    exact ⟨some ⟨opening, literal, mem_argumentKinds_iff.1 hk, closing⟩, rfl, rfl⟩

/-- Whatever is read as an attribute has a derivation from the tokens that were taken. -/
theorem exists_of_read? {a : Attribute} (h : read? ts = .done (some a) rest) :
    ∃ d : Derivation, d.value = a ∧ ts = d.tokens ++ rest := by
  obtain ⟨o, ts₁, ho, h₁⟩ := bind_eq_done_iff.1 h
  cases o with
  | none => simp [pure_eq_done_iff] at h₁
  | some o =>
    obtain ⟨opening, rfl, rfl⟩ := exists_of_eat?_some ho
    obtain ⟨_, ts₂, hn, h₂⟩ := bind_eq_done_iff.1 h₁
    obtain ⟨name, rfl, rfl⟩ := exists_of_expect hn
    obtain ⟨⟨text, isNumber⟩, ts₃, ha, h₃⟩ := bind_eq_done_iff.1 h₂
    obtain ⟨argument, hv, rfl⟩ := exists_of_readArgument ha
    obtain ⟨_, ts₄, hc, h₄⟩ := bind_eq_done_iff.1 h₃
    obtain ⟨closing, rfl, rfl⟩ := exists_of_expect hc
    cases hb : ofKeyword? name.token.lexeme text isNumber with
    | none =>
      simp only [hb] at h₄
      exact absurd h₄ fail_ne_done
    | some b =>
      simp only [hb] at h₄
      obtain ⟨he, rfl⟩ := pure_eq_done_iff.1 h₄
      obtain rfl := Option.some.inj he
      exact ⟨⟨opening, name, argument, closing, b, by rw [hv]; exact hb⟩, rfl, by simp [Derivation.tokens]⟩

/-- Without an attribute the cursor stays, at no opening bracket. -/
theorem eq_of_read?_none (h : read? ts = .done none rest) : ts = rest ∧ ∀ t ∈ rest.head?, t.kind ≠ .openBracket := by
  obtain ⟨o, ts₁, ho, h₁⟩ := bind_eq_done_iff.1 h
  cases o with
  | none =>
    obtain ⟨_, rfl⟩ := pure_eq_done_iff.1 h₁
    exact eq_of_eat?_none ho
  | some o =>
    refine absurd h₁ (bind_ne_none fun name _ => bind_ne_none fun value _ => bind_ne_none fun _ _ => ?_)
    cases ofKeyword? name.lexeme value.1 value.2 with
    | none => exact fail_ne_done
    | some b => exact some_ne_none

/-! ## Derivations are read -/

theorem readArgument_tokens {keyword : String} (a : Option (Argument keyword)) (closing : Commented .closeBracket)
    (rest : List Token) : readArgument keyword (a.elim [] Argument.tokens ++ (closing.tokens ++ rest)) =
      .done (Argument.value a) (closing.tokens ++ rest) := by
  cases a with
  | none =>
    obtain ⟨t, us, hc, hne⟩ := (closing.startsWith rest).exists_ne .openParenthesis
    simp [readArgument, bind_apply, hc, eat?_of_kind_ne hne, pure_apply, Argument.value]
  | some a =>
    have hl : ∀ us, take (argumentKinds keyword) none (a.literal :: us) = .done a.literal us := fun us =>
      take_eq_done_iff.2 ⟨rfl, mem_argumentKinds_iff.2 a.kind_eq⟩
    simp [readArgument, bind_apply, Argument.tokens, eat?_of_kind a.opening.kind_eq, hl, expect_tokens, pure_apply,
      Argument.value]

/-- A derivation is read as its attribute, whatever follows. -/
theorem read?_tokens (d : Derivation) (rest : List Token) :
    read? (d.tokens ++ rest) = .done (some d.value) rest := by
  simp [read?, bind_apply, Derivation.tokens, eat?_of_kind d.opening.kind_eq, expect_tokens, readArgument_tokens,
    d.known, pure_apply]

theorem read?_of_kind_ne {t : Token} (h : t.kind ≠ .openBracket) : read? (t :: ts) = .done none (t :: ts) := by
  simp [read?, bind_apply, eat?_of_kind_ne h, pure_apply]

theorem progresses_read? : Progresses read? := by
  intro ts a rest h
  obtain ⟨d, _, rfl⟩ := exists_of_read? h
  simp only [Derivation.tokens, List.cons_append, List.length_cons, List.length_append]
  omega

end SchemaLang.Attribute
