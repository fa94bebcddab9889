import SchemaLang.FieldType.Reader
import SchemaLang.Proofs.Grammar.Token

/-!
# Derivations: types

The grammar of types, as the trees that derive them.

    type = C* ( map C* '[' key C* ',' type C* ']' | array C* '[' type C* ']' | Identifier ) | type '[' C* ']'

* `FieldType.Derivation` is a derivation, `tokens` are its leaves and `type` is the type that it derives.
* A key is a type that is built in, which is the name of one and nothing else (`isScalar_type_iff`).
* `typeNames` are the tokens that name a definition; they stand in the derived type in the same order (`leaves_type`).
* The bound on the depth is never reached (`readUpTo_congr`), so the types inside a type are read as types (`read_eq`).
* Reading gives exactly the derived types (`derives_read`, `read_tokens`), as far as the cursor stands at no further
  suffix afterwards.
-/

namespace SchemaLang.FieldType

open TokenReader

/-- The name of a built-in type as the key of a map. -/
structure Key extends Commented .identifier where
  base : Scalar
  name_eq : base.name = token.lexeme

/-- The brackets that make an array of the type before them. -/
structure Suffix where
  opening : TokenOf .openBracket
  closing : Commented .closeBracket

/-- A derivation of a type. -/
inductive Derivation where
  | name (word : Commented .identifier)
  | map (word : Commented .map) (opening : Commented .openBracket) (key : Key) (comma : Commented .comma)
      (value : Derivation) (closing : Commented .closeBracket)
  | array (word : Commented .array) (opening : Commented .openBracket) (element : Derivation)
      (closing : Commented .closeBracket)
  | suffix (element : Derivation) (brackets : Suffix)

/-- The tokens of a suffix. No comment stands before its opening bracket. -/
def Suffix.tokens (s : Suffix) : List Token := s.opening.token :: s.closing.tokens

/-- The type of a key. -/
def Key.type (k : Key) : FieldType := scalar k.base k.token.span

namespace Derivation

/-- The tokens of a derivation in order. -/
def tokens : Derivation → List Token
  | name word => word.tokens
  | map word opening key comma value closing =>
    word.tokens ++ opening.tokens ++ key.tokens ++ comma.tokens ++ value.tokens ++ closing.tokens
  | array word opening element closing => word.tokens ++ opening.tokens ++ element.tokens ++ closing.tokens
  | suffix element brackets => element.tokens ++ brackets.tokens

/-- The type that a derivation derives. -/
def type : Derivation → FieldType
  | name word => ofName word.token
  | map word _ key _ value closing => .map key.type value.type (word.token.span.combine closing.token.span)
  | array word _ element closing => element.type.arrayOf (word.token.span.combine closing.token.span)
  | suffix element brackets => element.type.arrayOf (element.type.span.combine brackets.closing.token.span)

/-- The tokens that name a definition, in order. -/
def typeNames : Derivation → List Token
  | name word => if (Scalar.ofName? word.token.lexeme).isSome then [] else [word.token]
  | map _ _ _ _ value _ => value.typeNames
  | array _ _ element _ => element.typeNames
  | suffix element _ => element.typeNames

/-- The defined names in the derived type are those tokens. -/
theorem leaves_type (d : Derivation) : d.type.leaves = d.typeNames.map fun t => (t.lexeme, t.span) := by
  induction d with
  | name word =>
    simp only [type, ofName, typeNames]
    cases Scalar.ofName? word.token.lexeme <;> simp [leaves]
  | map word opening key comma value closing ih => simpa [type, Key.type, leaves, typeNames] using ih
  | array word opening element closing ih => simpa [type, arrayOf, leaves, typeNames] using ih
  | suffix element brackets ih => simpa [type, arrayOf, leaves, typeNames] using ih

/-- The names stand among the tokens in the same order. -/
theorem typeNames_sublist (d : Derivation) : d.typeNames.Sublist d.tokens := by
  induction d with
  | name word =>
    simp only [typeNames, tokens, Commented.tokens]
    split
    · exact List.nil_sublist _
    · exact List.sublist_append_right _ _
  | map word opening key comma value closing ih =>
    exact (ih.trans (List.sublist_append_right _ _)).trans (List.sublist_append_left _ _)
  | array word opening element closing ih =>
    exact (ih.trans (List.sublist_append_right _ _)).trans (List.sublist_append_left _ _)
  | suffix element brackets ih => exact ih.trans (List.sublist_append_left _ _)

/-- Only the name of a built-in type derives a type that is built in. -/
theorem isScalar_type_iff {d : Derivation} : d.type.isScalar = true ↔ ∃ k : Key, d = name k.toCommented := by
  cases d with
  | name word =>
    constructor
    · intro h
      cases hs : Scalar.ofName? word.token.lexeme with
      | none => simp [type, ofName, hs, isScalar] at h
      | some base => exact ⟨⟨word, base, Scalar.ofName?_eq_some_iff.1 hs⟩, rfl⟩
    · rintro ⟨k, hk⟩
      simp only [name.injEq] at hk
      simp [type, hk, ofName, Scalar.ofName?_eq_some_iff.2 k.name_eq, isScalar]
  | map => simp [type, isScalar]
  | array => simp [type, arrayOf, isScalar]
  | suffix => simp [type, arrayOf, isScalar]

theorem type_key (k : Key) : (name k.toCommented).type = k.type := by
  simp [type, ofName, Scalar.ofName?_eq_some_iff.2 k.name_eq, Key.type]

/-- A type starts with a word. -/
theorem startsWith (d : Derivation) :
    ∀ rest : List Token, StartsWith [.identifier, .map, .array] (d.tokens ++ rest) := by
  induction d with
  | name word => exact fun rest => (word.startsWith rest).mono
  | map word => exact fun rest => by simpa only [tokens, List.append_assoc] using (word.startsWith _).mono
  | array word => exact fun rest => by simpa only [tokens, List.append_assoc] using (word.startsWith _).mono
  | suffix element brackets ih => exact fun rest => by simpa only [tokens, List.append_assoc] using ih _

/-- No token of a type ends the file. -/
theorem kind_ne_of_mem {d : Derivation} {t : Token} (h : t ∈ d.tokens) : t.kind ≠ .endOfFile := by
  induction d with
  | name word => exact word.kind_ne_endOfFile h
  | map word opening key comma value closing ih =>
    simp only [tokens, List.mem_append] at h
    rcases h with ((((h | h) | h) | h) | h) | h
    · exact word.kind_ne_endOfFile h
    · exact opening.kind_ne_endOfFile h
    · exact key.kind_ne_endOfFile h
    · exact comma.kind_ne_endOfFile h
    · exact ih h
    · exact closing.kind_ne_endOfFile h
  | array word opening element closing ih =>
    simp only [tokens, List.mem_append] at h
    rcases h with ((h | h) | h) | h
    · exact word.kind_ne_endOfFile h
    · exact opening.kind_ne_endOfFile h
    · exact ih h
    · exact closing.kind_ne_endOfFile h
  | suffix element brackets ih =>
    simp only [tokens, Suffix.tokens, List.mem_append, List.mem_cons] at h
    rcases h with h | rfl | h
    · exact ih h
    · simp [brackets.opening.kind_eq]
    · exact brackets.closing.kind_ne_endOfFile h

end Derivation

/-! ## Suffixes -/

theorem exists_of_readSuffix? {ts rest : List Token} {closing : Span}
    (h : readSuffix? ts = .done (some closing) rest) :
    ∃ s : Suffix, s.closing.token.span = closing ∧ ts = s.tokens ++ rest := by
  obtain ⟨o, mid, ho, hn⟩ := bind_eq_done_iff.1 h
  cases o with
  | none => simp [pure_eq_done_iff] at hn
  | some t =>
    obtain ⟨opening, rfl, rfl⟩ := exists_of_eat?_some ho
    obtain ⟨c, mid', hc, hp⟩ := bind_eq_done_iff.1 hn
    obtain ⟨closing, rfl, rfl⟩ := exists_of_expect hc
    obtain ⟨hs, rfl⟩ := pure_eq_done_iff.1 hp
    exact ⟨⟨opening, closing⟩, Option.some.inj hs, rfl⟩

theorem eq_of_readSuffix?_none {ts rest : List Token} (h : readSuffix? ts = .done none rest) : ts = rest := by
  obtain ⟨o, mid, ho, hn⟩ := bind_eq_done_iff.1 h
  cases o with
  | none => exact (eq_of_eat?_none ho).1.trans (pure_eq_done_iff.1 hn).2
  | some t => exact absurd hn (bind_ne_none fun _ _ => some_ne_none)

theorem readSuffix?_tokens (s : Suffix) (rest : List Token) :
    readSuffix? (s.tokens ++ rest) = .done (some s.closing.token.span) rest := by
  simp [readSuffix?, bind_apply, Suffix.tokens, eat?_of_kind s.opening.kind_eq, expect_tokens, pure_apply]

theorem progresses_readSuffix? : Progresses readSuffix? := by
  intro ts closing rest h
  obtain ⟨s, _, rfl⟩ := exists_of_readSuffix? h
  simp only [Suffix.tokens, List.cons_append, List.length_cons, List.length_append]
  omega

/-- Suffixes put behind a derivation. -/
theorem exists_suffixes (ss : List Suffix) : ∀ d : Derivation, ∃ e : Derivation,
    e.type = d.type.withSuffixes (ss.map fun s => s.closing.token.span) ∧
      e.tokens = d.tokens ++ ss.flatMap Suffix.tokens := by
  induction ss with
  | nil => exact fun d => ⟨d, rfl, by simp⟩
  | cons s ss ih =>
    intro d
    obtain ⟨e, ht, hk⟩ := ih (d.suffix s)
    exact ⟨e, ht, by simp [hk, Derivation.tokens]⟩

/-! ## Reading derives -/

section Sound

/-- Whatever a reader gives has a derivation from the tokens that it takes. -/
def Derives (read : TokenReader FieldType) : Prop :=
  ∀ ⦃ts rest t⦄, read ts = .done t rest → ∃ d : Derivation, d.type = t ∧ ts = d.tokens ++ rest

variable {readInner : TokenReader FieldType} {ts rest : List Token} {t : FieldType}

theorem exists_of_readMap (inner : Derives readInner) (word : Commented .map)
    (h : readMap readInner word.token ts = .done t rest) :
    ∃ d : Derivation, d.type = t ∧ word.tokens ++ ts = d.tokens ++ rest := by
  obtain ⟨_, ts₁, ho, h₁⟩ := bind_eq_done_iff.1 h
  obtain ⟨opening, rfl, rfl⟩ := exists_of_expect ho
  obtain ⟨key, ts₂, hk, h₂⟩ := bind_eq_done_iff.1 h₁
  obtain ⟨k, rfl, rfl⟩ := inner hk
  split at h₂
  · rename_i hs
    obtain ⟨key, rfl⟩ := Derivation.isScalar_type_iff.1 hs
    obtain ⟨_, ts₃, hc, h₃⟩ := bind_eq_done_iff.1 h₂
    obtain ⟨comma, rfl, rfl⟩ := exists_of_expect hc
    obtain ⟨_, ts₄, hv, h₄⟩ := bind_eq_done_iff.1 h₃
    obtain ⟨value, rfl, rfl⟩ := inner hv
    obtain ⟨_, ts₅, hcl, h₅⟩ := bind_eq_done_iff.1 h₄
    obtain ⟨closing, rfl, rfl⟩ := exists_of_expect hcl
    obtain ⟨rfl, rfl⟩ := pure_eq_done_iff.1 h₅
    refine ⟨.map word opening key comma value closing, ?_, by simp [Derivation.tokens]⟩
    rw [Derivation.type_key]
    rfl
  · exact absurd h₂ fail_ne_done

theorem exists_of_readArray (inner : Derives readInner) (word : Commented .array)
    (h : readArray readInner word.token ts = .done t rest) :
    ∃ d : Derivation, d.type = t ∧ word.tokens ++ ts = d.tokens ++ rest := by
  obtain ⟨_, ts₁, ho, h₁⟩ := bind_eq_done_iff.1 h
  obtain ⟨opening, rfl, rfl⟩ := exists_of_expect ho
  obtain ⟨_, ts₂, he, h₂⟩ := bind_eq_done_iff.1 h₁
  obtain ⟨element, rfl, rfl⟩ := inner he
  obtain ⟨_, ts₃, hcl, h₃⟩ := bind_eq_done_iff.1 h₂
  obtain ⟨closing, rfl, rfl⟩ := exists_of_expect hcl
  obtain ⟨rfl, rfl⟩ := pure_eq_done_iff.1 h₃
  exact ⟨.array word opening element closing, rfl, by simp [Derivation.tokens]⟩

/-- The comments before a type belong to its first token. -/
theorem exists_of_readBase (inner : Derives readInner) (cs : Comments) (h : readBase readInner ts = .done t rest) :
    ∃ d : Derivation, d.type = t ∧ cs.tokens ++ ts = d.tokens ++ rest := by
  obtain ⟨m, ts₁, hm, h₁⟩ := bind_eq_done_iff.1 h
  cases m with
  | some m =>
    obtain ⟨word, rfl, rfl⟩ := exists_of_eat?_some hm
    obtain ⟨d, ht, hd⟩ := exists_of_readMap inner ⟨word, cs⟩ h₁
    exact ⟨d, ht, by simpa [Commented.tokens] using hd⟩
  | none =>
    obtain ⟨rfl, _⟩ := eq_of_eat?_none hm
    obtain ⟨a, ts₂, ha, h₂⟩ := bind_eq_done_iff.1 h₁
    cases a with
    | some a =>
      obtain ⟨word, rfl, rfl⟩ := exists_of_eat?_some ha
      obtain ⟨d, ht, hd⟩ := exists_of_readArray inner ⟨word, cs⟩ h₂
      exact ⟨d, ht, by simpa [Commented.tokens] using hd⟩
    | none =>
      obtain ⟨rfl, _⟩ := eq_of_eat?_none ha
      obtain ⟨_, ts₃, hn, h₃⟩ := bind_eq_done_iff.1 h₂
      obtain ⟨word, rfl, rfl⟩ := exists_of_expect hn
      obtain ⟨rfl, rfl⟩ := pure_eq_done_iff.1 h₃
      exact ⟨.name (word.after cs), rfl, by simp [Derivation.tokens]⟩

end Sound

/-- Whatever is read as a type has a derivation from the tokens that were taken. -/
theorem derives_readUpTo : ∀ depth : Nat, Derives (readUpTo depth)
  | 0, _, _, _, h => absurd h fail_ne_done
  | depth + 1, ts, rest, t, h => by
    obtain ⟨_, ts₁, hs, h₁⟩ := bind_eq_done_iff.1 h
    obtain ⟨cs, rfl, _⟩ := exists_of_skipComments hs
    obtain ⟨base, ts₂, hb, h₂⟩ := bind_eq_done_iff.1 h₁
    obtain ⟨d, rfl, hd⟩ := exists_of_readBase (derives_readUpTo depth) cs hb
    obtain ⟨closings, ts₃, hm, h₃⟩ := bind_eq_done_iff.1 h₂
    obtain ⟨ss, stop, rfl, rfl, hstop⟩ := exists_of_many exists_of_readSuffix? hm
    obtain ⟨rfl, rfl⟩ := pure_eq_done_iff.1 h₃
    obtain ⟨e, ht, hk⟩ := exists_suffixes ss d
    exact ⟨e, ht, by rw [hd, hk, eq_of_readSuffix?_none hstop, List.append_assoc]⟩

theorem derives_read : Derives read := fun _ _ _ h => derives_readUpTo _ h

/-! ## The bound on the depth -/

section Bound

variable {inner inner' : TokenReader FieldType} {ts : List Token}

theorem readMap_congr (word : Token) (derives : Derives inner)
    (h : ∀ us, us.length ≤ ts.length → inner us = inner' us) : readMap inner word ts = readMap inner' word ts := by
  refine bind_congr rfl fun _ ts₁ ho => ?_
  obtain ⟨opening, _, rfl⟩ := exists_of_expect ho
  simp only [List.length_append] at h
  refine bind_congr (h ts₁ (by omega)) fun key ts₂ hk => ?_
  obtain ⟨k, _, rfl⟩ := derives hk
  split
  · refine bind_congr rfl fun _ ts₃ hc => ?_
    obtain ⟨comma, _, rfl⟩ := exists_of_expect hc
    simp only [List.length_append] at h
    exact bind_congr (h ts₃ (by omega)) fun _ _ _ => rfl
  · rfl

theorem readArray_congr (word : Token) (h : ∀ us, us.length ≤ ts.length → inner us = inner' us) :
    readArray inner word ts = readArray inner' word ts := by
  refine bind_congr rfl fun _ ts₁ ho => ?_
  obtain ⟨opening, _, rfl⟩ := exists_of_expect ho
  simp only [List.length_append] at h
  exact bind_congr (h ts₁ (by omega)) fun _ _ _ => rfl

theorem readBase_congr (derives : Derives inner) (h : ∀ us, us.length < ts.length → inner us = inner' us) :
    readBase inner ts = readBase inner' ts := by
  refine bind_congr rfl fun m ts₁ hm => ?_
  cases m with
  | some word =>
    obtain ⟨_, rfl, rfl⟩ := exists_of_eat?_some hm
    exact readMap_congr _ derives fun us hu => h us (Nat.lt_succ_of_le hu)
  | none =>
    obtain ⟨rfl, _⟩ := eq_of_eat?_none hm
    refine bind_congr rfl fun a ts₂ ha => ?_
    cases a with
    | some word =>
      obtain ⟨_, rfl, rfl⟩ := exists_of_eat?_some ha
      exact readArray_congr _ fun us hu => h us (Nat.lt_succ_of_le hu)
    | none => rfl

/-- Two bounds above the number of tokens give the same type. -/
theorem readUpTo_congr : ∀ {n m : Nat} {ts : List Token}, ts.length < n → ts.length < m →
    (readUpTo n : TokenReader FieldType) ts = (readUpTo m : TokenReader FieldType) ts
  | n + 1, m + 1, ts, hn, hm => by
    refine bind_congr rfl fun _ ts₁ hs => ?_
    obtain ⟨cs, rfl, _⟩ := exists_of_skipComments hs
    simp only [List.length_append] at hn hm
    refine bind_congr (readBase_congr (derives_readUpTo n) fun us hu => ?_) fun _ _ _ => rfl
    exact readUpTo_congr (by omega) (by omega)

/-- A type is read from comments, a base and its suffixes; types inside are read in the same way. -/
theorem read_eq : read = (do
    skipComments
    let base ← readBase read
    return base.withSuffixes (← many readSuffix?)) := by
  funext ts
  rw [read_apply]
  refine bind_congr rfl fun _ ts₁ hs => ?_
  obtain ⟨cs, rfl, _⟩ := exists_of_skipComments hs
  refine bind_congr (readBase_congr (derives_readUpTo _) fun us hu => ?_) fun _ _ _ => rfl
  refine readUpTo_congr ?_ (Nat.lt_succ_self _)
  simp only [List.length_append]
  omega

end Bound

/-! ## Derivations are read -/

/-- A token list that goes on without a suffix. -/
def NoSuffix (ts : List Token) : Prop := ∃ t us, ts = t :: us ∧ t.kind ≠ .openBracket

/-- The reader of what may follow a type without suffixes. -/
def readSuffixes (t : FieldType) : TokenReader FieldType := do return t.withSuffixes (← many readSuffix?)

theorem readSuffixes_of_noSuffix {rest : List Token} (t : FieldType) (h : NoSuffix rest) :
    readSuffixes t rest = .done t rest := by
  obtain ⟨u, us, rfl, hu⟩ := h
  have hs : readSuffix? (u :: us) = .done none (u :: us) := by
    simp [readSuffix?, bind_apply, eat?_of_kind_ne hu, pure_apply]
  have hm : many readSuffix? (u :: us) = .done [] (u :: us) := by
    simpa using many_tokens progresses_readSuffix? ([] : List Suffix) (fun s _ => readSuffix?_tokens s) hs
  simp [readSuffixes, bind_apply, hm, pure_apply, withSuffixes]

theorem readSuffixes_tokens (t : FieldType) (s : Suffix) (rest : List Token) :
    readSuffixes t (s.tokens ++ rest) = readSuffixes (t.arrayOf (t.span.combine s.closing.token.span)) rest := by
  simp only [readSuffixes, bind_apply]
  rw [many_eq progresses_readSuffix?]
  simp only [bind_apply, readSuffix?_tokens]
  cases many readSuffix? rest with
  | failed problem rest => rfl
  | done closings rest => rfl

/-- After the comments before a type, its first token decides. -/
theorem readUpTo_succ {kind : TokenKind} (depth : Nat) (c : Commented kind) (ts : List Token)
    (h : kind ≠ .blockComment := by decide) :
    readUpTo (m := TokenReader) (depth + 1) (c.tokens ++ ts) =
      (readBase (readUpTo depth) >>= readSuffixes) (c.token :: ts) := by
  simp only [readUpTo, liftM_eq, bind_apply, Commented.tokens, List.append_assoc, List.singleton_append,
    skipComments_tokens c.comments (c.isComment_eq_false h)]
  rfl

/-- Reading the tokens of a derivation goes on with the suffixes that follow, whatever the bound on the depth. -/
def Derivation.IsRead (d : Derivation) : Prop :=
  ∀ ⦃depth⦄ (rest : List Token), d.tokens.length ≤ depth →
    readUpTo (m := TokenReader) (depth + 1) (d.tokens ++ rest) = readSuffixes d.type rest

namespace Derivation

theorem IsRead.readUpTo_eq {d : Derivation} {depth : Nat} {rest : List Token} (h : d.IsRead)
    (hd : d.tokens.length < depth) (hn : NoSuffix rest) :
    readUpTo (m := TokenReader) depth (d.tokens ++ rest) = .done d.type rest := by
  obtain ⟨n, rfl⟩ : ∃ n, depth = n + 1 := ⟨depth - 1, by omega⟩
  rw [h rest (by omega), readSuffixes_of_noSuffix _ hn]

theorem isRead_name (word : Commented .identifier) : (name word).IsRead := by
  intro depth rest _
  rw [tokens, readUpTo_succ depth word]
  simp [readBase, readName_eq, bind_apply, eat?, word.kind_eq, expect_token word.toTokenOf, pure_apply, type]

theorem isRead_map {value : Derivation} (h : value.IsRead) (word : Commented .map) (opening : Commented .openBracket)
    (key : Key) (comma : Commented .comma) (closing : Commented .closeBracket) :
    (map word opening key comma value closing).IsRead := by
  intro depth rest hd
  simp only [tokens, List.length_append] at hd
  have hw := word.length_tokens
  have hk : readUpTo (m := TokenReader) depth
      (key.tokens ++ (comma.tokens ++ (value.tokens ++ (closing.tokens ++ rest)))) =
        .done key.type (comma.tokens ++ (value.tokens ++ (closing.tokens ++ rest))) := by
    rw [← type_key]
    exact (isRead_name key.toCommented).readUpTo_eq (by simp only [tokens]; omega) ((comma.startsWith _).exists_ne _)
  have hv : readUpTo (m := TokenReader) depth (value.tokens ++ (closing.tokens ++ rest)) =
      .done value.type (closing.tokens ++ rest) :=
    h.readUpTo_eq (by omega) ((closing.startsWith _).exists_ne _)
  simp only [tokens, List.append_assoc]
  rw [readUpTo_succ depth word]
  simp [readBase, readMap, bind_apply, eat?, word.kind_eq, expect_tokens, hk, hv, pure_apply, Key.type, isScalar, type]

theorem isRead_array {element : Derivation} (h : element.IsRead) (word : Commented .array)
    (opening : Commented .openBracket) (closing : Commented .closeBracket) :
    (array word opening element closing).IsRead := by
  intro depth rest hd
  simp only [tokens, List.length_append] at hd
  have hw := word.length_tokens
  have he : readUpTo (m := TokenReader) depth (element.tokens ++ (closing.tokens ++ rest)) =
      .done element.type (closing.tokens ++ rest) :=
    h.readUpTo_eq (by omega) ((closing.startsWith _).exists_ne _)
  simp only [tokens, List.append_assoc]
  rw [readUpTo_succ depth word]
  simp [readBase, readArray, bind_apply, eat?, word.kind_eq, expect_tokens, he, pure_apply, type]

theorem isRead_suffix {element : Derivation} (h : element.IsRead) (brackets : Suffix) :
    (suffix element brackets).IsRead := by
  intro depth rest hd
  simp only [tokens, List.length_append] at hd
  rw [tokens, List.append_assoc, h _ (by omega), readSuffixes_tokens]
  rfl

theorem isRead (d : Derivation) : d.IsRead := by
  induction d with
  | name word => exact isRead_name word
  | map word opening key comma value closing ih => exact isRead_map ih word opening key comma closing
  | array word opening element closing ih => exact isRead_array ih word opening closing
  | suffix element brackets ih => exact isRead_suffix ih brackets

end Derivation

/-- A derivation is read as its type, if no suffix follows. -/
theorem read_tokens {rest : List Token} (d : Derivation) (h : NoSuffix rest) :
    read (d.tokens ++ rest) = .done d.type rest :=
  d.isRead.readUpTo_eq (by simp only [List.length_append]; omega) h

end SchemaLang.FieldType
