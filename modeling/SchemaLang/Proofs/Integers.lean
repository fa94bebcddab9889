import SchemaLang.Proofs.Lexemes
import SchemaLang.Proofs.NumberPlaces
import SchemaLang.Proofs.Numerals
import SchemaLang.Proofs.Resolution

/-!
# Integers are exact or refused

The indices and constants of a schema are the numbers that are written.

* An integer is read from exactly the lexemes that denote one in range; every other lexeme is refused
  (`Field.readInteger_eq_done_iff`, `Field.readInteger_eq_failed`).
* A number in a text starts with a digit, so it has no sign and its value is no negative number
  (`Token.exists_of_number`).
* `Field.Body.numeral?` is the number that is written in a field. What is derived has its value, field by field.
* A number out of range is refused at its place if the tokens in front of it have no problem
  (`Schema.refused_of_outOfRange`).
* Main result: `Schema.integers_ofText`.
-/

namespace SchemaLang

open Text (Denotes DenotesSigned)

/-! ## Reading an integer -/

namespace Field

variable {hint : String} {c : Commented .number} {rest : List Token} {v : Int}

theorem readInteger_apply (hint : String) (c : Commented .number) (rest : List Token) :
    readInteger hint (c.tokens ++ rest) = match Text.signed32? c.token.lexeme.toList with
      | some n => .done n rest
      | none => .failed (.invalidNumber c.token.lexeme c.token.span) rest := by
  rw [readInteger, TokenReader.bind_apply, TokenReader.expect_tokens]
  dsimp only
  cases Text.signed32? c.token.lexeme.toList <;> rfl

/-- The value is the integer that the lexeme denotes, if it is in range. -/
theorem readInteger_eq_done_iff : readInteger hint (c.tokens ++ rest) = .done v rest ↔
    DenotesSigned c.token.lexeme.toList v ∧ -2 ^ 31 ≤ v ∧ v ≤ 2 ^ 31 - 1 := by
  rw [readInteger_apply, ← Text.signed32?_eq_some_iff]
  cases Text.signed32? c.token.lexeme.toList <;> simp

theorem readInteger_eq_failed (h : ∀ v, ¬ (DenotesSigned c.token.lexeme.toList v ∧ -2 ^ 31 ≤ v ∧ v ≤ 2 ^ 31 - 1)) :
    readInteger hint (c.tokens ++ rest) = .failed (.invalidNumber c.token.lexeme c.token.span) rest := by
  have hnone : Text.signed32? c.token.lexeme.toList = none :=
    Option.eq_none_iff_forall_ne_some.2 fun v hv => h v (Text.signed32?_eq_some_iff.1 hv)
  rw [readInteger_apply, hnone]

end Field

/-! ## Numbers in a text -/

namespace Token

/-- A number that is not written in ASCII digits alone, or is too large. -/
def OutOfRange (t : Token) : Prop :=
  (∃ c ∈ t.lexeme.toList, c.isDigit = false) ∨ ∃ n, Denotes t.lexeme.toList n ∧ 2 ^ 31 - 1 < n

variable {text : String} {file : Nat} {tokens : List Token} {t : Token}

/-- A number in a text starts with an ASCII digit. -/
theorem exists_of_number (h : ofText text file = .ok tokens) (ht : t ∈ tokens) (hk : t.kind = .number) :
    ∃ d ds, t.lexeme.toList = d :: ds ∧ d.isDigit = true := by
  rcases allows_or_isForeignNumeral h ht with hallows | ⟨-, hkind⟩
  · rw [hk] at hallows
    obtain ⟨hne, hdigits⟩ := hallows
    obtain ⟨d, ds, hd⟩ := List.exists_cons_of_ne_nil hne
    exact ⟨d, ds, hd, hdigits d (hd ▸ List.mem_cons_self)⟩
  · rw [hk] at hkind
    cases hw : t.lexeme.toList with
    | nil => simp [hw, Element.digitsKind] at hkind
    | cons d ds =>
      refine ⟨d, ds, rfl, ?_⟩
      by_contra hd
      simp [hw, Element.digitsKind, hd] at hkind

/-- Without a sign in front an integer is read as a natural number in range. -/
theorem denotes_of_signed32? {d : Char} {ds : List Char} {v : Int} (hd : d.isDigit = true)
    (h : Text.signed32? (d :: ds) = some v) : ∃ n : Nat, Denotes (d :: ds) n ∧ n ≤ 2 ^ 31 - 1 ∧ v = n := by
  obtain ⟨hv, -, hmax⟩ := Text.signed32?_eq_some_iff.1 h
  cases hv with
  | bare hn => exact ⟨_, hn, by omega, rfl⟩
  | plus | minus => exact absurd hd (by decide)

/-- A number of a text that is out of range is not read. -/
theorem OutOfRange.signed32?_eq_none (ho : t.OutOfRange) (h : ofText text file = .ok tokens) (ht : t ∈ tokens)
    (hk : t.kind = .number) : Text.signed32? t.lexeme.toList = none := by
  obtain ⟨d, ds, hw, hd⟩ := exists_of_number h ht hk
  refine Option.eq_none_iff_forall_ne_some.2 fun v hv => ?_
  rw [hw] at hv
  obtain ⟨n, hn, hmax, -⟩ := denotes_of_signed32? hd hv
  rw [← hw] at hn
  rcases ho with ⟨c, hc, hdigit⟩ | ⟨m, hm, hlarge⟩
  · exact absurd (hn.isDigit c hc) (by simp [hdigit])
  · have := hn.value_eq.symm.trans hm.value_eq
    omega

end Token

/-! ## The numbers of fields -/

namespace Field.Body

variable {kind : DefinitionKind}

/-- The number that is written in a field: the index of a message field, the value of a constant. -/
def numeral? : Body kind → Option Numeral
  | enum _ _ constant => some constant
  | struct _ _ => none
  | message index _ _ _ _ => some index

/-- The fields of all definitions but structs have a number, which is their value. -/
theorem exists_numeral (b : Body kind) (hk : kind ≠ .struct) :
    ∃ m, b.numeral? = some m ∧ m.token ∈ b.tokens ∧ b.value = m.value := by
  cases b with
  | enum name equals constant => exact ⟨constant, rfl, by simp [tokens, constant.token_mem], rfl⟩
  | struct => exact absurd rfl hk
  | message index hyphen greater type name => exact ⟨index, rfl, by simp [tokens, index.token_mem], rfl⟩

end Field.Body

/-- A field with the number that is written in it in a text, and the value of that number. -/
structure Field.Derivation.Numbered {kind : DefinitionKind} (f : Field.Derivation kind) (text : String) (n : Nat) :
    Prop where
  exists_numeral : ∃ m, f.body.numeral? = some m ∧ m.token ∈ f.tokens ∧
    m.token.span.Covers text.toList m.token.lexeme.toList ∧ Denotes m.token.lexeme.toList n
  le : n ≤ 2 ^ 31 - 1

/-- The value of a field of a text is the number that is written in it. -/
theorem Field.Derivation.numbered {kind : DefinitionKind} {text : String} {tokens : List Token}
    (f : Field.Derivation kind) (hk : kind ≠ .struct) (h : Token.ofText text 0 = .ok tokens) (hf : f.tokens ⊆ tokens)
    (owner : Token) : ∃ n : Nat, f.Numbered text n ∧ (f.field owner).value = n := by
  obtain ⟨m, hm, hmem, hvalue⟩ := f.body.exists_numeral hk
  have hmem := f.body_infix.subset hmem
  obtain ⟨d, ds, hw, hd⟩ := Token.exists_of_number h (hf hmem) m.kind_eq
  obtain ⟨n, hn, hmax, hv⟩ := Token.denotes_of_signed32? hd (hw ▸ m.value_eq)
  have hcovers := Token.covers_lexeme h (hf hmem) (by rw [m.kind_eq]; rfl)
  exact ⟨n, ⟨⟨m, hm, hmem, hcovers, hw ▸ hn⟩, hmax⟩, hvalue.trans hv⟩

/-! ## Numbers out of range -/

namespace Schema

/-- Tokens behind which a member has its number, in some definitions. -/
def ExpectsNumber (pre : List Token) : Prop :=
  ∃ (ds : List Definition.Derivation) (t : TokenOf .number) (us : List Token),
    ds.flatMap Definition.Derivation.tokens = pre ++ t.token :: us

/-- In definitions that are well-formed one by one no token is unexpected. -/
theorem ofTokens_ne_unexpected (ds : List Definition.Derivation) (ns : String) (expected : List TokenKind)
    (actual : Token) (hint : Option String) :
    ofTokens (ds.flatMap Definition.Derivation.tokens) ns ≠ .error (.unexpectedToken expected actual hint) := by
  have hend : Token.beforeEnd (ds.flatMap Definition.Derivation.tokens) =
      ds.flatMap Definition.Derivation.tokens ++ Comments.none.tokens := by
    rw [Comments.none, List.append_nil]
    refine List.takeWhile_eq_self_iff.2 fun t ht => ?_
    obtain ⟨d, -, hd⟩ := List.mem_flatMap.1 ht
    exact decide_eq_true (Definition.Derivation.kind_ne_of_mem hd)
  intro h
  by_cases hn : (Definition.Derivation.names ds).Nodup
  · rw [ofTokens_of_nodup hend ns hn, Definition.resolve, Reference.resolve] at h
    split at h
    · cases h
    · cases h
  · obtain ⟨us, d, vs, rfl, hu, hd⟩ :=
      exists_first_repeated (fun d : Definition.Derivation => d.definition.name) [] ds (by simp) hn
    rw [ofTokens_of_repeated hend ns hu hd] at h
    cases h

variable {text ns : String} {pre post : List Token} {t : Token}

/-- A number of a text that is out of range is refused at its place, unless the tokens in front of it have a problem or
no number may come behind them. -/
theorem refused_of_outOfRange (h : Token.ofText text 0 = .ok (pre ++ t :: post)) (hk : t.kind = .number)
    (hpre : Token.OutsideArgument pre) (ho : t.OutOfRange) : ∃ problem, ofText text ns = .error problem ∧
      (problem.Concerns pre ∨ problem = .invalidNumber t.lexeme t.span ∨
        ¬ ExpectsNumber pre ∧ ∃ expected hint, .number ∉ expected ∧ problem = .unexpectedToken expected t hint) := by
  have hnone := ho.signed32?_eq_none h (List.mem_append_right pre List.mem_cons_self) hk
  have hun : Unended pre := fun u hu => Token.kind_ne_of_ofText h (List.mem_append_left _ hu)
  rw [ofText_eq h ns, List.append_assoc, List.cons_append]
  cases atNumber hun hpre ns with
  | failed problem concerns fails => exact ⟨problem, fails ⟨t, hk⟩ _, .inl concerns⟩
  | wanted fails => exact ⟨_, fails ⟨t, hk⟩ _ hnone, .inr (.inl rfl)⟩
  | refused expected hint other fails =>
    refine ⟨_, fails ⟨t, hk⟩ _, .inr (.inr ⟨?_, expected, hint, other, rfl⟩)⟩
    rintro ⟨ds, u, us, hds⟩
    exact ofTokens_ne_unexpected ds ns expected u.token hint (hds ▸ fails u us)

/-- An integer is read from exactly the lexemes that denote one in range, and every other lexeme is refused at its
place. So the fields of a text have the numbers that are written in them, field by field, and a number out of range is
refused at its place, unless the tokens in front of it have a problem or no number may come behind them. -/
theorem integers_ofText (text ns : String) :
    (∀ (hint : String) (c : Commented .number) (rest : List Token),
      (∀ v, Field.readInteger hint (c.tokens ++ rest) = .done v rest ↔
        DenotesSigned c.token.lexeme.toList v ∧ -2 ^ 31 ≤ v ∧ v ≤ 2 ^ 31 - 1) ∧
      ((∀ v, ¬ (DenotesSigned c.token.lexeme.toList v ∧ -2 ^ 31 ≤ v ∧ v ≤ 2 ^ 31 - 1)) →
        Field.readInteger hint (c.tokens ++ rest) = .failed (.invalidNumber c.token.lexeme c.token.span) rest)) ∧
    (∀ s, ofText text ns = .ok s → ∃ d : Derivation, Token.ofText text 0 = .ok d.tokens ∧ s = d.schema ns ∧
      ∀ e ∈ d.definitions, e.kind ≠ .struct → ∀ (j : Nat) f, e.fields[j]? = some f →
        ∃ n : Nat, f.Numbered text n ∧ (e.definition.fields[j]?).map Field.value = some (n : Int)) ∧
    ∀ pre t post, Token.ofText text 0 = .ok (pre ++ t :: post) → t.kind = .number → Token.OutsideArgument pre →
      t.OutOfRange → ∃ problem, ofText text ns = .error problem ∧
        (problem.Concerns pre ∨ problem = .invalidNumber t.lexeme t.span ∨
          ¬ ExpectsNumber pre ∧ ∃ expected hint, .number ∉ expected ∧ problem = .unexpectedToken expected t hint) := by
  refine ⟨fun hint c rest => ⟨fun v => Field.readInteger_eq_done_iff, Field.readInteger_eq_failed⟩, fun s hs => ?_,
    fun pre t post => refused_of_outOfRange⟩
  obtain ⟨tokens, ht⟩ := exists_tokens_of_ofText hs
  obtain ⟨d, rfl, rfl⟩ := exists_derivation_of_ofText ht hs
  refine ⟨d, ht, rfl, fun e he hk j f hf => ?_⟩
  have hfield := Definition.Derivation.field_infix_extent (List.mem_of_getElem? hf)
  have hsub : f.tokens ⊆ d.tokens := fun _ hmem =>
    (Derivation.infix_of_mem he).subset (e.extent_suffix.subset (hfield.subset hmem))
  obtain ⟨n, hn, hvalue⟩ := f.numbered hk ht hsub e.name.token
  refine ⟨n, hn, ?_⟩
  rw [Definition.Derivation.definition, List.getElem?_map, hf]
  exact congrArg some hvalue

/-- A message with indices in no order, one of them twice and with zeros in front, an enum with a constant that is too
large by one, behind an argument that is larger, and a lexeme with two signs. -/
theorem integers_ofText_repeated :
    let fields := "message M \x7b 007 -> bool a; 3 -> bool b; 7 -> bool c; \x7d"
    let constants := "[opcode(99999999999)] enum E \x7b A = 2147483647; B = 2147483648; \x7d"
    let ts := match Token.ofText constants 0 with
      | .ok ts => ts
      | .error _ => []
    let t : Token := ⟨.number, "2147483648", ⟨0, ⟨51, 1, 52⟩, ⟨61, 1, 62⟩⟩⟩
    let signs : Commented .number := ⟨⟨⟨.number, "+-1", Span.zero⟩, rfl⟩, Comments.none⟩
    (∃ s, ofText fields "N" = .ok s ∧ ∃ d : Derivation, Token.ofText fields 0 = .ok d.tokens ∧ s = d.schema "N" ∧
      ∀ e ∈ d.definitions, e.kind ≠ .struct → ∀ (j : Nat) f, e.fields[j]? = some f →
        ∃ n : Nat, f.Numbered fields n ∧ (e.definition.fields[j]?).map Field.value = some (n : Int)) ∧
    (Token.ofText constants 0 = .ok (ts.take 15 ++ t :: ts.drop 16) ∧ t.kind = .number ∧
      Token.OutsideArgument (ts.take 15) ∧ t.OutOfRange ∧ ∃ problem, ofText constants "N" = .error problem ∧
        (problem.Concerns (ts.take 15) ∨ problem = .invalidNumber t.lexeme t.span ∨ ¬ ExpectsNumber (ts.take 15) ∧
          ∃ expected hint, .number ∉ expected ∧ problem = .unexpectedToken expected t hint)) ∧
    Field.readInteger "" (signs.tokens ++ []) = .failed (.invalidNumber signs.token.lexeme signs.token.span) [] := by
  intro fields constants ts t signs
  have hfields : (ofText fields "N").isOk = true := by decide +kernel
  have hts : Token.ofText constants 0 = .ok (ts.take 15 ++ t :: ts.drop 16) := by decide +kernel
  have hpre : Token.OutsideArgument (ts.take 15) := by decide +kernel
  have ho : t.OutOfRange := .inr ⟨2147483648, Text.natural?_eq_some_iff.1 (by decide), by decide⟩
  have hsigns : ∀ v, ¬ (DenotesSigned signs.token.lexeme.toList v ∧ -2 ^ 31 ≤ v ∧ v ≤ 2 ^ 31 - 1) := fun v hv =>
    absurd (Text.signed32?_eq_some_iff.2 hv) (by simp [signs, Text.signed32?, Text.integer?, Text.natural?])
  obtain ⟨s, hs⟩ := exists_of_isOk hfields
  obtain ⟨hread, -, hrefused⟩ := integers_ofText constants "N"
  exact ⟨⟨s, hs, (integers_ofText fields "N").2.1 s hs⟩, ⟨hts, rfl, hpre, ho, hrefused _ t _ hts rfl hpre ho⟩,
    (hread "" signs []).2 hsigns⟩

end Schema

end SchemaLang
