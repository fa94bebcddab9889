import SchemaLang.Proofs.Pinpointing
import SchemaLang.Proofs.Printing

/-!
# Lexemes

What tokens of each kind may be spelled like, and what the names of a schema are spelled like.

* `TokenKind.Allows` says which lexemes the tokens of a kind should have.
* A run of digits may have digits beyond ASCII in it (`IsForeignNumeral`). It is a token, too: a number if it starts
  with an ASCII digit, and an identifier otherwise.
* All other tokens of a text have lexemes of their kinds (`Token.allows_or_isForeignNumeral`). In a text without digits
  beyond ASCII these are all tokens (`Token.allows_of_hasAsciiDigits`).
* The names in a schema are the lexemes of identifiers or the names of built-in types
  (`Schema.isNameIn_of_mem_names`).
* Main result: `Schema.lexemes_ofText`.
-/

namespace SchemaLang

/-! ## Classes of lexemes -/

/-- The lexemes that tokens of a kind should have. -/
def TokenKind.Allows : TokenKind → String → Prop
  | identifier, w => IsIdentifier w
  | number, w => w.toList ≠ [] ∧ ∀ c ∈ w.toList, c.isDigit = true
  | rawString, w => '\'' ∉ w.toList
  | escapedString, _ => True
  | blockComment, w => IsDocumentation w
  | endOfFile, _ => False
  | kind, w => (w, kind) ∈ keywords ∨ ∃ c, (c, kind) ∈ Element.marks ∧ w = String.singleton c

/-- A run of decimal digits of which not all are ASCII digits. -/
def IsForeignNumeral (w : String) : Prop :=
  (∀ c ∈ w.toList, Text.isDecimalDigit c = true) ∧ ∃ c ∈ w.toList, c.isDigit = false

/-- A text in which all decimal digits are ASCII digits. -/
def HasAsciiDigits (s : List Char) : Prop := ∀ c ∈ s, Text.isDecimalDigit c = true → c.isDigit = true

-- Not all characters are tried, only those of the text.
instance (s : List Char) : Decidable (HasAsciiDigits s) := List.decidableBAll _ s

theorem IsForeignNumeral.not_hasAsciiDigits {w : String} {s : List Char} (h : IsForeignNumeral w)
    (hs : w.toList ⊆ s) : ¬ HasAsciiDigits s := by
  obtain ⟨hall, c, hc, hd⟩ := h
  intro ha
  have hascii := ha c (hs hc) (hall c hc)
  rw [hd] at hascii
  cases hascii

/-! ## Trimmed texts -/

namespace Text

theorem trimStart_eq_self_iff {s : List Char} : trimStart s = s ↔ ∀ c ∈ s.head?, isBlank c = false := by
  constructor
  · intro h c hc
    rw [← h] at hc
    exact Element.head?_dropWhile isBlank s c hc
  · intro h
    cases s with
    | nil => rfl
    | cons c s => exact List.dropWhile_cons_of_neg (by simpa using h c rfl)

theorem trim_isPrefix_trimStart (s : List Char) : trim s <+: trimStart s := by
  rw [trim, ← List.reverse_suffix, List.reverse_reverse]
  exact List.dropWhile_suffix isBlank

theorem trim_infix (s : List Char) : trim s <:+: s :=
  (trim_isPrefix_trimStart s).isInfix.trans (List.dropWhile_suffix isBlank).isInfix

/-- A text without white space at its ends. -/
def Trimmed (s : List Char) : Prop := (∀ c ∈ s.head?, isBlank c = false) ∧ ∀ c ∈ s.getLast?, isBlank c = false

theorem trim_eq_self {s : List Char} (h : Trimmed s) : trim s = s := by
  have hend : trimStart s.reverse = s.reverse := by
    rw [trimStart_eq_self_iff, List.head?_reverse]
    exact h.2
  rw [trim, trimStart_eq_self_iff.2 h.1, hend, List.reverse_reverse]

theorem trimmed_trim (s : List Char) : Trimmed (trim s) := by
  constructor
  · intro c hc
    obtain ⟨rest, hrest⟩ := trim_isPrefix_trimStart s
    apply Element.head?_dropWhile isBlank s c
    rw [← trimStart, ← hrest, List.head?_append, Option.mem_def.1 hc]
    rfl
  · intro c hc
    rw [trim, List.getLast?_reverse] at hc
    exact Element.head?_dropWhile isBlank _ c hc

/-- Of a trimmed text nothing is trimmed. -/
theorem trim_trim (s : List Char) : trim (trim s) = trim s := trim_eq_self (trimmed_trim s)

end Text

/-! ## Tokens -/

namespace Element

/-- A word is an identifier or is the reserved word of its kind. -/
theorem allows_wordKind {w : List Char} (h : IsWord w) : (wordKind w).Allows (String.ofList w) := by
  rw [wordKind]
  cases hk : keyword? (String.ofList w) with
  | none =>
    refine ⟨?_, ?_⟩
    · rwa [String.toList_ofList]
    · rw [isKeyword, hk]
      rfl
  | some kind =>
    have hall : ∀ k ∈ keywords, k.2.Allows k.1 := by
      intro k hm
      have hm' := hm
      simp only [keywords, List.mem_cons, List.not_mem_nil, or_false] at hm'
      rcases hm' with rfl | rfl | rfl | rfl | rfl | rfl <;> exact .inl hm
    obtain ⟨before, after, hm, _⟩ := List.lookup_eq_some_iff.1 hk
    exact hall _ (hm ▸ List.mem_append_right before List.mem_cons_self)

theorem allows_mark {char : Char} {kind : TokenKind} (h : (char, kind) ∈ marks) :
    kind.Allows (String.singleton char) := by
  have h' := h
  simp only [marks, List.mem_cons, Prod.mk.injEq, List.not_mem_nil, or_false] at h'
  rcases h' with ⟨-, rfl⟩ | ⟨-, rfl⟩ | ⟨-, rfl⟩ | ⟨-, rfl⟩ | ⟨-, rfl⟩ | ⟨-, rfl⟩ | ⟨-, rfl⟩ | ⟨-, rfl⟩ | ⟨-, rfl⟩ |
    ⟨-, rfl⟩ | ⟨-, rfl⟩ <;> exact .inr ⟨char, h, rfl⟩

/-- A run of digits is a number of ASCII digits or has digits beyond ASCII. -/
theorem allows_or_isForeignNumeral_digits {w : List Char} (hne : w ≠ [])
    (hw : ∀ c ∈ w, Text.isDecimalDigit c = true) :
    (digitsKind w).Allows (String.ofList w) ∨ IsForeignNumeral (String.ofList w) := by
  by_cases hascii : ∀ c ∈ w, c.isDigit = true
  · left
    obtain ⟨d, v, rfl⟩ := List.exists_cons_of_ne_nil hne
    rw [digitsKind, if_pos (hascii d List.mem_cons_self)]
    exact ⟨by simp, by simpa using hascii⟩
  · right
    simp only [not_forall, Bool.not_eq_true] at hascii
    obtain ⟨c, hc, hd⟩ := hascii
    exact ⟨by simpa using hw, c, by simpa using hc, hd⟩

/-- A proper element that is a token has a lexeme of its kind, or is a run of digits beyond ASCII. -/
theorem Proper.allows {e : Element} {c : TokenKind × String} (h : e.Proper) (hc : e.content? = some c) :
    c.1.Allows c.2 ∨ IsForeignNumeral c.2 ∧ c.1 = digitsKind c.2.toList := by
  cases e with
  | lineComment | blanks => cases hc
  | blockComment body =>
    obtain rfl := Option.some.inj hc
    refine .inl ⟨?_, fun hi => ?_⟩
    · rw [String.toList_ofList, Text.trim_trim]
    · rw [String.toList_ofList] at hi
      exact h (hi.trans (Text.trim_infix body))
  | escapedString =>
    obtain rfl := Option.some.inj hc
    exact .inl trivial
  | rawString body =>
    obtain rfl := Option.some.inj hc
    refine .inl ?_
    show '\'' ∉ (String.ofList body).toList
    rwa [String.toList_ofList]
  | digits w =>
    obtain rfl := Option.some.inj hc
    refine (allows_or_isForeignNumeral_digits h.1 h.2).imp_right fun hf => ⟨hf, ?_⟩
    rw [String.toList_ofList]
  | word w =>
    obtain rfl := Option.some.inj hc
    exact .inl (allows_wordKind h)
  | mark char kind =>
    obtain rfl := Option.some.inj hc
    exact .inl (allows_mark h)

end Element

namespace Token

variable {text : String} {file : Nat} {tokens : List Token} {t : Token}

/-- A token of a text has a lexeme of its kind, or is a run of digits beyond ASCII. -/
theorem allows_or_isForeignNumeral (h : ofText text file = .ok tokens) (ht : t ∈ tokens) :
    t.kind.Allows t.lexeme ∨ IsForeignNumeral t.lexeme ∧ t.kind = Element.digitsKind t.lexeme.toList := by
  obtain ⟨e, hp, he⟩ := exists_proper h ht
  exact hp.allows he

/-- In a text without digits beyond ASCII every token has a lexeme of its kind. -/
theorem allows_of_hasAsciiDigits (h : ofText text file = .ok tokens) (ha : HasAsciiDigits text.toList)
    (ht : t ∈ tokens) : t.kind.Allows t.lexeme := by
  rcases allows_or_isForeignNumeral h ht with hallows | ⟨hforeign, hkind⟩
  · exact hallows
  · have hverbatim : t.kind.isVerbatim = true := by
      rcases Element.digitsKind_eq t.lexeme.toList with hk | hk <;> simp [hkind, hk, TokenKind.isVerbatim]
    obtain ⟨before, after, htext, _⟩ := covers_lexeme h ht hverbatim
    refine absurd ha (hforeign.not_hasAsciiDigits fun c hc => ?_)
    rw [htext]
    simp [hc]

end Token

/-! ## Names -/

/-- The names inside a type, those of built-in types included, from left to right. -/
def FieldType.names : FieldType → List String
  | scalar base _ => [base.name]
  | array element _ _ => element.names
  | map key value _ => key.names ++ value.names
  | defined name _ => [name]

/-- The names in a definition: its own, and those of its fields and their types. -/
def Definition.names (d : Definition) : List String := d.name :: d.fields.flatMap fun f => f.name :: f.type.names

/-- The names in a schema, of definitions, fields and types. -/
def Schema.names (s : Schema) : List String := s.definitions.flatMap Definition.names

/-- A name that is the lexeme of an identifier, or the name of a built-in type. -/
def IsNameIn (ts : List Token) (name : String) : Prop :=
  IsIdentifier name ∨ ∃ t ∈ ts, t.kind = .identifier ∧ t.lexeme = name

theorem IsNameIn.mono {ts us : List Token} {name : String} (h : IsNameIn ts name) (hs : ts ⊆ us) : IsNameIn us name :=
  h.imp_right fun ⟨t, ht, hk⟩ => ⟨t, hs ht, hk⟩

theorem Commented.isNameIn (c : Commented .identifier) : IsNameIn c.tokens c.token.lexeme :=
  .inr ⟨c.token, by simp [Commented.tokens], c.kind_eq, rfl⟩

/-- The names in a derived type. -/
theorem FieldType.Derivation.isNameIn {name : String} (d : Derivation) (h : name ∈ d.type.names) :
    IsNameIn d.tokens name := by
  induction d with
  | name word =>
    simp only [type, ofName] at h
    cases hs : Scalar.ofName? word.token.lexeme with
    | some base =>
      simp only [hs, names, List.mem_singleton] at h
      rw [h]
      exact .inl base.isIdentifier_name
    | none =>
      simp only [hs, names, List.mem_singleton] at h
      rw [h]
      exact word.isNameIn
  | map word opening key comma value closing ih =>
    simp only [type, Key.type, names, List.mem_append, List.mem_singleton] at h
    rcases h with rfl | h
    · exact .inl key.base.isIdentifier_name
    · refine (ih h).mono fun t ht => ?_
      simp [tokens, ht]
  | array word opening element closing ih =>
    refine (ih h).mono fun t ht => ?_
    simp [tokens, ht]
  | suffix element brackets ih => exact (ih h).mono (List.subset_append_left _ _)

theorem Field.Body.isNameIn {kind : DefinitionKind} {name : String} (b : Body kind) (owner : Token)
    (h : name ∈ (b.type owner).names) : IsNameIn b.tokens name := by
  cases b with
  | enum =>
    obtain rfl := List.mem_singleton.1 h
    exact .inl Scalar.uint32.isIdentifier_name
  | struct type => exact (type.isNameIn h).mono (List.subset_append_left _ _)
  | message index hyphen greater type =>
    refine (type.isNameIn h).mono fun t ht => ?_
    simp [tokens, ht]

theorem Field.Body.name_subset {kind : DefinitionKind} (b : Body kind) : b.name.tokens ⊆ b.tokens := by
  intro t ht
  cases b <;> simp_all [name, tokens]

/-- The names in a derived field: its own and those in its type. -/
theorem Field.Derivation.isNameIn {kind : DefinitionKind} {name : String} (d : Derivation kind) (owner : Token)
    (h : name ∈ (d.field owner).name :: (d.field owner).type.names) : IsNameIn d.tokens name := by
  have hbody : IsNameIn d.body.tokens name := by
    rcases List.mem_cons.1 h with rfl | h
    · exact d.body.name.isNameIn.mono d.body.name_subset
    · exact d.body.isNameIn owner h
  refine hbody.mono fun t ht => ?_
  simp [tokens, core, ht]

/-- The names in a derived definition. -/
theorem Definition.Derivation.isNameIn {name : String} (d : Derivation) (h : name ∈ d.definition.names) :
    IsNameIn d.tokens name := by
  rcases List.mem_cons.1 h with rfl | h
  · refine d.name.isNameIn.mono fun t ht => ?_
    simp [tokens, core, ht]
  · obtain ⟨f', hf', hname⟩ := List.mem_flatMap.1 h
    obtain ⟨f, hf, rfl⟩ := List.mem_map.1 hf'
    refine (f.isNameIn d.name.token hname).mono fun t ht => ?_
    have hfields : t ∈ d.fields.flatMap Field.Derivation.tokens := List.mem_flatMap.2 ⟨f, hf, ht⟩
    simp only [tokens, core, List.mem_append, List.mem_cons]
    exact .inr (.inr (.inr (.inr (.inl (.inr hfields)))))

namespace Schema

variable {text ns : String} {tokens : List Token} {s : Schema}

/-- The names in the schema of a text are lexemes of identifiers of the text, or names of built-in types. -/
theorem isNameIn_of_mem_names (h : Token.ofText text 0 = .ok tokens) (hs : ofText text ns = .ok s) {name : String}
    (hname : name ∈ s.names) : IsNameIn tokens name := by
  obtain ⟨d, hd, hname⟩ := List.mem_flatMap.1 hname
  obtain ⟨e, rfl, he⟩ := exists_derivation_of_mem h hs hd
  exact (e.isNameIn hname).mono he.subset

/-- A text that is a schema has tokens. -/
theorem exists_tokens_of_ofText (hs : ofText text ns = .ok s) : ∃ tokens, Token.ofText text 0 = .ok tokens := by
  cases h : Token.ofText text 0 with
  | ok tokens => exact ⟨tokens, rfl⟩
  | error problem =>
    rw [ofText_error h] at hs
    cases hs

/-- Every token of a text has a lexeme of its kind, and every name in a schema is an identifier, except runs of digits
beyond ASCII. These are identifiers for the reader if they do not start with an ASCII digit. Texts without such digits
have no exceptions. -/
theorem lexemes_ofText (text : String) (file : Nat) (ns : String) :
    (∀ tokens, Token.ofText text file = .ok tokens → ∀ t ∈ tokens,
      t.kind.Allows t.lexeme ∨ IsForeignNumeral t.lexeme ∧ t.kind = Element.digitsKind t.lexeme.toList) ∧
    (∀ s, ofText text ns = .ok s → ∀ name ∈ s.names, IsIdentifier name ∨ IsForeignNumeral name) ∧
    (HasAsciiDigits text.toList →
      (∀ tokens, Token.ofText text file = .ok tokens → ∀ t ∈ tokens, t.kind.Allows t.lexeme) ∧
        ∀ s, ofText text ns = .ok s → ∀ name ∈ s.names, IsIdentifier name) := by
  refine ⟨fun tokens h t ht => Token.allows_or_isForeignNumeral h ht, fun s hs name hname => ?_,
    fun ha => ⟨fun tokens h t ht => Token.allows_of_hasAsciiDigits h ha ht, fun s hs name hname => ?_⟩⟩
  · obtain ⟨tokens, h⟩ := exists_tokens_of_ofText hs
    rcases isNameIn_of_mem_names h hs hname with hi | ⟨t, ht, hk, rfl⟩
    · exact .inl hi
    · have hallows := Token.allows_or_isForeignNumeral h ht
      rw [hk] at hallows
      exact hallows.imp_right And.left
  · obtain ⟨tokens, h⟩ := exists_tokens_of_ofText hs
    rcases isNameIn_of_mem_names h hs hname with hi | ⟨t, ht, hk, rfl⟩
    · exact hi
    · have hallows := Token.allows_of_hasAsciiDigits h ha ht
      rwa [hk] at hallows

/-- A text with a comment and a number with a zero in front. -/
theorem lexemes_ofText_ascii :
    let text := "/* d */ enum _E1 \x7b A = 07; \x7d"
    ∃ tokens s, Token.ofText text 3 = .ok tokens ∧ ofText text "N" = .ok s ∧ (∀ t ∈ tokens, t.kind.Allows t.lexeme) ∧
      ∀ name ∈ s.names, IsIdentifier name := by
  intro text
  obtain ⟨tokens, h⟩ : ∃ tokens, Token.ofText text 3 = .ok tokens := exists_of_isOk (by decide +kernel)
  obtain ⟨s, hs⟩ : ∃ s, ofText text "N" = .ok s := exists_of_isOk (by decide +kernel)
  obtain ⟨htokens, hnames⟩ := (lexemes_ofText text 3 "N").2.2 (by decide +kernel)
  exact ⟨tokens, s, h, hs, htokens tokens h, hnames s hs⟩

/-- An Arabic digit is an identifier for the reader, and names a definition. -/
theorem not_isIdentifier_of_arabic_digit : ∃ tokens s, Token.ofText "struct \u0663 \x7b \x7d" 0 = .ok tokens ∧
    ofText "struct \u0663 \x7b \x7d" "N" = .ok s ∧ (∃ t ∈ tokens, t.kind = .identifier ∧ ¬ t.kind.Allows t.lexeme) ∧
      ∃ name ∈ s.names, ¬ IsIdentifier name := by
  let name : Token := ⟨.identifier, "\u0663", ⟨0, ⟨7, 1, 8⟩, ⟨9, 1, 10⟩⟩⟩
  refine ⟨[⟨.struct, "struct", ⟨0, ⟨0, 1, 1⟩, ⟨6, 1, 7⟩⟩⟩, name, ⟨.openBrace, "\x7b", ⟨0, ⟨10, 1, 11⟩, ⟨11, 1, 12⟩⟩⟩,
    ⟨.closeBrace, "\x7d", ⟨0, ⟨12, 1, 13⟩, ⟨13, 1, 14⟩⟩⟩],
    ⟨"N", [⟨"\u0663", .struct, false, ⟨0, ⟨7, 1, 8⟩, ⟨13, 1, 14⟩⟩, "", [], []⟩]⟩, ?_, ?_, ⟨name, by simp, rfl, ?_⟩,
    "\u0663", by simp [names, Definition.names], ?_⟩
  · decide +kernel
  · decide +kernel
  · show ¬ IsIdentifier "\u0663"
    decide
  · decide

end Schema

end SchemaLang
