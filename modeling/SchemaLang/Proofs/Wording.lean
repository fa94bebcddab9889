import SchemaLang.Proofs.Opcodes
import SchemaLang.Proofs.Streams

/-!
# Wording of diagnostics

Which control characters the message of a diagnostic can have in it.

* `Text.OneLine` says that a text has none. A message is on one line exactly if the texts are that it has in it as they
  are (`Diagnostic.oneLine_message_iff`). Places, kinds of tokens and quoted lexemes always are.
* The lexemes of words, numbers and marks are on one line (`Token.tidy_of_ofText`). Strings and comments need not be.
* `TokenReader.Tidy` says that a reader, in front of such tokens, fails with a message of one line or gives a value with
  a property. All readers do, as no string gets into their messages without quotes. The types, the names and the numeric
  opcodes of the definitions they give are on one line, too.
* Main result: `Schema.compileText_oneLine`. The message of an invalid textual opcode has the opcode in it as it is
  (`Schema.not_oneLine_message`).
-/

namespace SchemaLang

/-! ## Texts and messages -/

namespace Text

variable {s t : String}

/-- A text without control characters below U+0020, so without line feeds and carriage returns. -/
def OneLine (s : String) : Prop := ∀ c ∈ s.toList, 0x20 ≤ c.toNat

instance (s : String) : Decidable (OneLine s) := List.decidableBAll _ s.toList

/-- The characters of a given text are tried one by one. -/
theorem oneLine_ofList {l : List Char} (h : (l.all fun c => 0x20 ≤ c.toNat) = true) : OneLine (String.ofList l) := by
  simpa [OneLine] using h

theorem oneLine_empty : OneLine "" := oneLine_ofList rfl

@[simp] theorem oneLine_append : OneLine (s ++ t) ↔ OneLine s ∧ OneLine t := by
  simp [OneLine, or_imp, forall_and]

/-- A text between two others of one line. -/
theorem oneLine_framed {u : String} (hs : OneLine s) (hu : OneLine u) : OneLine (s ++ t ++ u) ↔ OneLine t := by
  simp [hs, hu]

theorem oneLine_quote (s : String) : OneLine (quote s) := fun _ => quote_not_control

end Text

open Text (OneLine oneLine_append oneLine_empty oneLine_ofList)

theorem Span.oneLine_text (s : Span) : OneLine s.text := by
  have hdecimal : ∀ n, ∀ c ∈ Text.decimal n, 0x20 ≤ c.toNat := by
    intro n c hc
    have hdigit := Text.isDigit_of_mem_decimal hc
    simp only [Char.isDigit, Bool.and_eq_true, decide_eq_true_eq, ge_iff_le, UInt32.le_iff_toNat_le] at hdigit
    exact Nat.le_trans (by decide) hdigit.1
  rw [Span.text]
  simp only [OneLine, String.toList_ofList, List.forall_mem_append, List.forall_mem_cons]
  exact ⟨hdecimal _, by decide, hdecimal _⟩

theorem TokenKind.oneLine_description (kind : TokenKind) : OneLine kind.description := by
  cases kind <;> exact oneLine_ofList (by decide)

/-- A token is named with its lexeme in quotes, or only with its kind. -/
theorem Token.oneLine_describe (t : Token) : OneLine t.describe := by
  rw [describe]
  split
  case h_5 => exact t.kind.oneLine_description
  all_goals exact oneLine_append.2 ⟨oneLine_append.2 ⟨t.kind.oneLine_description, by decide⟩, Text.oneLine_quote _⟩

namespace Diagnostic

variable {problem : Diagnostic}

theorem oneLine_oneOf (kinds : List TokenKind) : OneLine (oneOf kinds) := by
  fun_induction oneOf kinds with
  | case1 => decide
  | case2 kind => exact kind.oneLine_description
  | case3 kind last => simp +decide [TokenKind.oneLine_description]
  | case4 kind rest _ _ ih => simp +decide [TokenKind.oneLine_description, ih]

theorem oneLine_hintSuffix {hint : Option String} : OneLine (hintSuffix hint) ↔ OneLine (hint.getD "") := by
  cases hint with
  | none => rfl
  | some h => simp +decide [hintSuffix]

/-- The texts that the message has in it as they are. -/
def inserts : Diagnostic → List String
  | unreadable fault => [fault.message]
  | lexical problem _ => [problem]
  | unexpectedToken _ _ hint => [hint.getD ""]
  | unknownAttribute keyword _ => [keyword]
  | reservedIdentifier name _ => [name]
  | invalidMapKey key => [key.display]
  | multipleDefinitions name _ => [name]
  | unrecognizedType name usedIn _ => [name, usedIn]
  | invalidNumber lexeme _ => [lexeme]
  | invalidAttribute keyword reason definition _ => [keyword, definition, reason]
  | missingEndOfFile => []

theorem oneLine_message_iff : OneLine problem.message ↔ ∀ s ∈ problem.inserts, OneLine s := by
  -- The equations of the message are not rewritten with: with all its texts, proving them takes too long.
  unfold message
  cases problem <;> simp only [inserts, oneLine_append, Span.oneLine_text, oneLine_oneOf, Token.oneLine_describe,
    oneLine_hintSuffix]
  all_goals simp +decide [and_assoc]

end Diagnostic

open Diagnostic (oneLine_message_iff)

/-! ## Tokens -/

namespace Token

/-- A token with a lexeme of one line, unless it is a string or a comment. -/
def Tidy (t : Token) : Prop := t.kind.isVerbatim = true → OneLine t.lexeme

variable {text : String} {file : Nat} {tokens : List Token} {problem : Diagnostic}

theorem tidy_endOfFile (span : Span) : (endOfFile span).Tidy := by
  intro hverbatim
  cases hverbatim

/-- No control character is a part of a word or a digit. -/
theorem le_of_isWordChar_or_isDecimalDigit {c : Char} (h : Element.isWordChar c = true ∨ Text.isDecimalDigit c = true) :
    0x20 ≤ c.toNat := by
  by_contra hlt
  have hall : ∀ n < 0x20, ¬ (Element.isWordChar (Char.ofNat n) = true ∨ Text.isDecimalDigit (Char.ofNat n) = true) := by
    decide
  have hnot := hall c.toNat (Nat.lt_of_not_le hlt)
  rw [Char.ofNat_toNat] at hnot
  exact hnot h

/-- The tokens of a text are tidy. -/
theorem tidy_of_ofText (h : ofText text file = .ok tokens) : ∀ t ∈ tokens, t.Tidy := by
  intro t ht hverbatim c hc
  obtain ⟨e, hproper, he⟩ := exists_proper h ht
  rw [← Element.text_eq_of_content? he hverbatim] at hc
  cases e with
  | lineComment | blanks => cases he
  | blockComment | escapedString | rawString =>
    obtain ⟨hkind, -⟩ := Prod.mk.inj (Option.some.inj he)
    rw [← hkind] at hverbatim
    cases hverbatim
  | digits w => exact le_of_isWordChar_or_isDecimalDigit (.inr (hproper.2 c hc))
  | word w => exact le_of_isWordChar_or_isDecimalDigit (.inl (List.all_eq_true.1 hproper.2 c hc))
  | mark char kind =>
    have hmarks : ∀ m ∈ Element.marks, 0x20 ≤ m.1.toNat := by decide
    obtain rfl := List.mem_singleton.1 hc
    exact hmarks _ hproper

/-- Text that is no part of an element is quoted. -/
theorem oneLine_of_ofText (h : ofText text file = .error problem) : OneLine problem.message := by
  have hunexpected : ∀ p s, OneLine (unexpectedText file p s).message := fun p s =>
    oneLine_message_iff.2 (by simp +decide [unexpectedText, Diagnostic.inserts, Text.oneLine_quote])
  rw [ofText_eq] at h
  split at h
  · cases h
  · obtain rfl := Except.error.inj h
    exact hunexpected _ _

end Token

/-! ## Readers -/

section Readers

variable {α β : Type} {good better : α → Prop} {wanted : β → Prop}

/-- A value with a property in front of tidy tokens, or a problem with a message of one line. -/
def Reading.Tidy (good : α → Prop) : Reading α → Prop
  | .done a rest => good a ∧ ∀ t ∈ rest, t.Tidy
  | .failed problem _ => OneLine problem.message

namespace TokenReader

/-- A reader that, in front of tidy tokens, gives a value with a property or fails with a message of one line. -/
def Tidy (good : α → Prop) (read : TokenReader α) : Prop := ∀ ts, (∀ t ∈ ts, t.Tidy) → (read ts).Tidy good

variable {read : TokenReader α}

theorem Tidy.mono (h : Tidy good read) (hg : ∀ a, good a → better a) : Tidy better read := by
  intro ts hts
  have hread := h ts hts
  cases hr : read ts with
  | done a rest =>
    rw [hr] at hread
    exact hread.imp_left (hg a)
  | failed problem rest =>
    rw [hr] at hread
    exact hread

theorem Tidy.pure {a : α} (h : good a) : Tidy good (Pure.pure a) := fun _ hts => ⟨h, hts⟩

theorem Tidy.fail {problem : Diagnostic} (h : OneLine problem.message) : Tidy good (fail problem) := fun _ _ => h

theorem Tidy.bind {next : α → TokenReader β} (hr : Tidy good read) (hn : ∀ a, good a → Tidy wanted (next a)) :
    Tidy wanted (read >>= next) := by
  intro ts hts
  have hread := hr ts hts
  rw [bind_apply]
  cases h : read ts with
  | done a rest =>
    rw [h] at hread
    exact hn a hread.1 rest hread.2
  | failed problem rest =>
    rw [h] at hread
    exact hread

theorem oneLine_missingEndOfFile : OneLine Diagnostic.missingEndOfFile.message := by decide

theorem Tidy.current : Tidy Token.Tidy current
  | [], _ => oneLine_missingEndOfFile
  | t :: _, hts => ⟨hts t List.mem_cons_self, hts⟩

theorem Tidy.advance : Tidy (fun _ => True) advance
  | [], _ => oneLine_missingEndOfFile
  | _ :: _, hts => ⟨trivial, (List.forall_mem_cons.1 hts).2⟩

theorem Tidy.eat? (kind : TokenKind) : Tidy (fun _ => True) (eat? kind) := by
  intro ts hts
  cases ts with
  | nil => exact oneLine_missingEndOfFile
  | cons t ts =>
    rw [TokenReader.eat?]
    split
    · exact ⟨trivial, (List.forall_mem_cons.1 hts).2⟩
    · exact ⟨trivial, hts⟩

theorem Tidy.take {kinds : List TokenKind} {hint : Option String} (hhint : OneLine (hint.getD "")) :
    Tidy (fun t => t.Tidy ∧ t.kind ∈ kinds) (take kinds hint) := by
  intro ts hts
  cases ts with
  | nil => exact oneLine_missingEndOfFile
  | cons t ts =>
    obtain ⟨ht, hrest⟩ := List.forall_mem_cons.1 hts
    rw [TokenReader.take]
    split
    · rename_i hk
      exact ⟨⟨ht, by simpa using hk⟩, hrest⟩
    · exact oneLine_message_iff.2 (by simpa [Diagnostic.inserts] using hhint)

theorem Tidy.skipComments : Tidy (fun _ => True) skipComments := fun _ hts =>
  ⟨trivial, fun t ht => hts t ((List.dropWhile_sublist _).subset ht)⟩

theorem Tidy.lastComment : Tidy (fun _ => True) lastComment := fun _ hts =>
  ⟨trivial, fun t ht => hts t ((List.dropWhile_sublist _).subset ht)⟩

theorem Tidy.expect {kind : TokenKind} {hint : Option String} (hhint : OneLine (hint.getD "")) :
    Tidy (fun t => kind.isVerbatim = true → OneLine t.lexeme) (expect kind hint) := by
  refine .bind .skipComments fun _ _ => (Tidy.take hhint).mono fun t ht hverbatim => ht.1 ?_
  rwa [List.mem_singleton.1 ht.2]

theorem Tidy.manyUpTo {item? : TokenReader (Option α)} (h : Tidy (fun a? => ∀ a ∈ a?, good a) item?) (n : Nat) :
    Tidy (fun as => ∀ a ∈ as, good a) (manyUpTo item? n) := by
  induction n with
  | zero => exact .fail oneLine_missingEndOfFile
  | succ n ih =>
    refine h.bind fun a? ha => ?_
    cases a? with
    | none => exact .pure (by simp)
    | some a => exact ih.bind fun as has => .pure (List.forall_mem_cons.2 ⟨ha a rfl, has⟩)

theorem Tidy.many {item? : TokenReader (Option α)} (h : Tidy (fun a? => ∀ a ∈ a?, good a) item?) :
    Tidy (fun as => ∀ a ∈ as, good a) (many item?) := fun ts hts => h.manyUpTo (ts.length + 1) ts hts

end TokenReader

end Readers

open TokenReader

/-! ## Types -/

namespace FieldType

/-- A type with a text of one line and defined names of one line. -/
structure Tidy (t : FieldType) : Prop where
  display : OneLine t.display
  leaves : ∀ leaf ∈ t.leaves, OneLine leaf.1

variable {t : FieldType} {inner : TokenReader FieldType}

theorem tidy_scalar (base : Scalar) (span : Span) : (scalar base span).Tidy := by
  have hname : OneLine base.name := by cases base <;> exact oneLine_ofList (by decide)
  exact ⟨hname, List.forall_mem_nil _⟩

theorem tidy_ofName {name : Token} (h : OneLine name.lexeme) : (ofName name).Tidy := by
  unfold ofName
  split
  · exact tidy_scalar _ _
  · exact ⟨h, List.forall_mem_singleton.2 h⟩

theorem Tidy.arrayOf (h : t.Tidy) (span : Span) : (t.arrayOf span).Tidy :=
  ⟨oneLine_append.2 ⟨h.display, by decide⟩, h.leaves⟩

theorem Tidy.withSuffixes (h : t.Tidy) (closings : List Span) : (t.withSuffixes closings).Tidy := by
  induction closings generalizing t with
  | nil => exact h
  | cons closing closings ih => exact ih (h.arrayOf _)

theorem Tidy.map {key value : FieldType} (hkey : key.Tidy) (hvalue : value.Tidy) (span : Span) :
    (map key value span).Tidy := by
  refine ⟨?_, List.forall_mem_append.2 ⟨hkey.leaves, hvalue.leaves⟩⟩
  simp +decide only [FieldType.display, oneLine_append, hkey.display, hvalue.display]

theorem oneLine_mapHint : OneLine mapHint := oneLine_ofList (by decide)

theorem oneLine_arrayHint : OneLine arrayHint := oneLine_ofList (by decide)

theorem oneLine_suffixHint : OneLine suffixHint := oneLine_ofList (by decide)

theorem tidy_readSuffix? : TokenReader.Tidy (fun closing? => ∀ closing ∈ closing?, True) readSuffix? := by
  refine .bind (.eat? _) fun o _ => ?_
  cases o with
  | none => exact .pure (by simp)
  | some t => exact .bind (.expect oneLine_suffixHint) fun closing _ => .pure (by simp)

theorem tidy_readMap (word : Token) (h : TokenReader.Tidy Tidy inner) : TokenReader.Tidy Tidy (readMap inner word) := by
  refine .bind (.expect oneLine_mapHint) fun _ _ => .bind h fun key hkey => ?_
  split
  · exact .bind (.expect oneLine_mapHint) fun _ _ => .bind h fun value hvalue =>
      .bind (.expect oneLine_mapHint) fun _ _ => .pure (hkey.map hvalue _)
  · exact .fail (oneLine_message_iff.2 (List.forall_mem_singleton.2 hkey.display))

theorem tidy_readArray (word : Token) (h : TokenReader.Tidy Tidy inner) :
    TokenReader.Tidy Tidy (readArray inner word) :=
  .bind (.expect oneLine_arrayHint) fun _ _ => .bind h fun _ helement =>
    .bind (.expect oneLine_arrayHint) fun _ _ => .pure (helement.arrayOf _)

theorem tidy_readBase (h : TokenReader.Tidy Tidy inner) : TokenReader.Tidy Tidy (readBase inner) := by
  refine .bind (.eat? _) fun o _ => ?_
  cases o with
  | some word => exact tidy_readMap word h
  | none =>
    refine .bind (.eat? _) fun o _ => ?_
    cases o with
    | some word => exact tidy_readArray word h
    | none => exact .bind (.expect oneLine_empty) fun name hname => .pure (tidy_ofName (hname rfl))

/-- Reading a type is tidy, by induction on the depth. -/
theorem tidy_readUpTo (depth : Nat) : TokenReader.Tidy Tidy (readUpTo depth) := by
  induction depth with
  | zero => exact .fail oneLine_missingEndOfFile
  | succ depth ih =>
    exact .bind .skipComments fun _ _ => .bind (tidy_readBase ih) fun base hbase =>
      .bind tidy_readSuffix?.many fun closings _ => .pure (hbase.withSuffixes closings)

theorem tidy_read : TokenReader.Tidy Tidy read := fun ts hts => tidy_readUpTo (ts.length + 1) ts hts

end FieldType

/-! ## Attributes -/

namespace Attribute

/-- An attribute that is no numeric opcode, or one with a number of one line. -/
def Tidy (a : Attribute) : Prop := ∀ value, a = opcode value true → OneLine value

theorem tidy_of_ofKeyword? {keyword argument : String} {isNumber : Bool} {a : Attribute}
    (h : ofKeyword? keyword argument isNumber = some a) (ha : isNumber = true → OneLine argument) : a.Tidy := by
  rintro value rfl
  unfold ofKeyword? at h
  split at h
  · cases h
  · split at h
    · obtain ⟨rfl, rfl⟩ := opcode.inj (Option.some.inj h)
      exact ha rfl
    · split at h
      · cases h
      · split at h
        · cases h
        · split at h <;> cases h

/-- The reason against an opcode has the opcode in it as it is. -/
theorem oneLine_reason_iff {value reason : String} {isNumber : Bool}
    (h : (opcode value isNumber).invalid? = some reason) : OneLine reason ↔ OneLine value := by
  cases isNumber <;> rw [invalid?] at h <;> split at h
  · cases h
  · obtain rfl := Option.some.inj h
    exact Text.oneLine_framed (oneLine_ofList (by decide)) (oneLine_ofList (by decide))
  · cases h
  · obtain rfl := Option.some.inj h
    exact Text.oneLine_framed (oneLine_ofList (by decide)) (oneLine_ofList (by decide))

/-- The argument is a number or a string, and only a string may have several lines. -/
theorem tidy_readArgument (keyword : String) :
    TokenReader.Tidy (fun argument => argument.2 = true → OneLine argument.1) (readArgument keyword) := by
  refine .bind (.eat? _) fun o _ => ?_
  cases o with
  | none => exact .pure (by simp)
  | some t =>
    refine .bind (.take oneLine_empty) fun literal hliteral => .bind (.expect oneLine_empty) fun _ _ =>
      .pure fun hnumber => hliteral.1 ?_
    rw [of_decide_eq_true hnumber]
    rfl

theorem tidy_read? : TokenReader.Tidy (fun a? => ∀ a ∈ a?, a.Tidy) read? := by
  refine .bind (.eat? _) fun o _ => ?_
  cases o with
  | none => exact .pure (by simp)
  | some t =>
    refine .bind (.expect oneLine_empty) fun name hname => .bind (tidy_readArgument _) fun argument hargument =>
      .bind (.expect oneLine_empty) fun _ _ => ?_
    cases hbuilt : ofKeyword? name.lexeme argument.1 argument.2 with
    | none => exact .fail (oneLine_message_iff.2 (List.forall_mem_singleton.2 (hname rfl)))
    | some a => exact .pure (by simpa using tidy_of_ofKeyword? hbuilt hargument)

end Attribute

/-! ## Fields -/

namespace Field

theorem tidy_readInteger {hint : String} (hhint : OneLine hint) :
    TokenReader.Tidy (fun _ => True) (readInteger hint) := by
  refine .bind (.expect hhint) fun number hnumber => ?_
  cases Text.signed32? number.lexeme.toList with
  | some n => exact .pure trivial
  | none => exact .fail (oneLine_message_iff.2 (List.forall_mem_singleton.2 (hnumber rfl)))

theorem oneLine_indexHint : OneLine indexHint := oneLine_ofList (by decide)

theorem tidy_readIndex (kind : DefinitionKind) : TokenReader.Tidy (fun _ => True) (readIndex kind) := by
  cases kind with
  | enum | struct => exact .pure trivial
  | message =>
    exact .bind (tidy_readInteger oneLine_indexHint) fun _ _ => .bind (.expect oneLine_indexHint) fun _ _ =>
      .bind (.expect oneLine_indexHint) fun _ _ => .pure trivial

theorem tidy_readType (owner : Token) (kind : DefinitionKind) :
    TokenReader.Tidy FieldType.Tidy (readType owner kind) := by
  cases kind with
  | enum => exact .pure (FieldType.tidy_scalar _ _)
  | struct | message => exact FieldType.tidy_read

/-- A reserved word is verbatim, as all words are. -/
theorem tidy_readName : TokenReader.Tidy (fun _ => True) readName := by
  refine .bind .skipComments fun _ _ => .bind .current fun candidate hcandidate => ?_
  split
  · rename_i hreserved
    have hkinds : ∀ kind ∈ keywords.map Prod.snd, kind.isVerbatim = true := by decide
    have hverbatim : candidate.kind.isVerbatim = true := by
      simp only [isReserved, TokenKind.isKeyword, Bool.or_eq_true, Bool.and_eq_true, List.contains_iff_mem,
        decide_eq_true_eq] at hreserved
      rcases hreserved with hk | ⟨hk, -⟩
      · exact hkinds _ hk
      · rw [hk]
        rfl
    exact .fail (oneLine_message_iff.2 (List.forall_mem_singleton.2 (hcandidate hverbatim)))
  · have hexpect : TokenReader.Tidy _ (expect .identifier none) := .expect oneLine_empty
    exact hexpect.mono fun _ _ => trivial

theorem oneLine_equalsHint : OneLine equalsHint := oneLine_ofList (by decide)

theorem oneLine_constantHint : OneLine constantHint := oneLine_ofList (by decide)

theorem tidy_readConstant (index : Int) (kind : DefinitionKind) :
    TokenReader.Tidy (fun _ => True) (readConstant index kind) := by
  cases kind with
  | enum => exact .bind (.expect oneLine_equalsHint) fun _ _ => tidy_readInteger oneLine_constantHint
  | struct | message => exact .pure trivial

theorem oneLine_semicolonHint (kind : DefinitionKind) : OneLine (semicolonHint kind) := by
  have hword : OneLine (withArticle kind.keyword) := by cases kind <;> decide
  exact (Text.oneLine_framed (oneLine_ofList (by decide)) (oneLine_ofList (by decide))).2 hword

theorem tidy_read (kind : DefinitionKind) (owner : Token) (documentation : String) :
    TokenReader.Tidy (fun f => f.type.Tidy) (read kind owner documentation) :=
  .bind Attribute.tidy_read? fun _ _ => .bind (tidy_readIndex kind) fun index _ =>
    .bind (tidy_readType owner kind) fun _ htype => .bind tidy_readName fun _ _ =>
      .bind (tidy_readConstant index kind) fun _ _ => .bind (.expect (oneLine_semicolonHint kind)) fun _ _ =>
        .pure htype

theorem tidy_read? (kind : DefinitionKind) (owner : Token) :
    TokenReader.Tidy (fun f? => ∀ f ∈ f?, f.type.Tidy) (read? kind owner) := by
  refine .bind .lastComment fun documentation _ => .bind .current fun t _ => ?_
  split
  · exact .pure (by simp)
  · exact .bind (tidy_read kind owner documentation) fun f hf => .pure (by simpa using hf)

end Field

/-! ## Definitions -/

theorem DefinitionKind.tidy_read : TokenReader.Tidy (fun _ => True) read := by
  refine .bind .current fun word _ => ?_
  split
  · exact .bind .advance fun _ _ => .pure trivial
  · exact .fail (oneLine_message_iff.2 (List.forall_mem_singleton.2 (by decide)))

namespace Definition

/-- A definition of which the name, the types of the fields and the numeric opcodes are on one line. -/
structure Tidy (d : Definition) : Prop where
  name : OneLine d.name
  types : ∀ f ∈ d.fields, f.type.Tidy
  attributes : ∀ a ∈ d.attributes, a.Tidy

theorem oneLine_nameHint (kind : DefinitionKind) : OneLine (nameHint kind) := by
  have hword : OneLine kind.keyword := by cases kind <;> decide
  exact (Text.oneLine_framed (oneLine_ofList (by decide)) (oneLine_ofList (by decide))).2 hword

theorem tidy_read? : TokenReader.Tidy (fun d? => ∀ d ∈ d?, d.2.Tidy) read? := by
  refine .bind .lastComment fun documentation _ => .bind .current fun t _ => ?_
  split
  · exact .pure (by simp)
  · refine .bind Attribute.tidy_read?.many fun attributes hattributes => .bind (.eat? _) fun _ _ =>
      .bind DefinitionKind.tidy_read fun kind _ => .bind (.expect (oneLine_nameHint kind)) fun name hname =>
        .bind (.expect oneLine_empty) fun _ _ => .bind (Field.tidy_read? kind name).many fun fields hfields =>
          .bind (.expect oneLine_empty) fun _ _ => .pure ?_
    rintro _ ⟨⟩
    exact ⟨hname rfl, hfields, hattributes⟩

/-- The message of a name that is not defined has that name and the name of the definition in it. -/
theorem oneLine_of_resolve {ds : List Definition} {problem : Diagnostic} (hds : ∀ d ∈ ds, d.Tidy)
    (h : resolve ds = .error problem) : OneLine problem.message := by
  rw [resolve, Reference.resolve] at h
  split at h
  · rename_i r hr
    obtain rfl := Except.error.inj h
    obtain ⟨d, hd, hmem⟩ := List.mem_flatMap.1 (List.mem_of_find?_eq_some hr)
    obtain ⟨f, hf, hleaf⟩ := List.mem_flatMap.1 hmem
    obtain ⟨leaf, hl, rfl⟩ := List.mem_map.1 hleaf
    refine oneLine_message_iff.2 (List.forall_mem_cons.2 ⟨((hds d hd).types f hf).leaves leaf hl, ?_⟩)
    exact List.forall_mem_singleton.2 (hds d hd).name
  · cases h

end Definition

/-! ## Schemas -/

/-- Definitions that are tidy, and a problem with a message of one line if there is one. -/
structure Progress.Tidy (p : Progress) : Prop where
  definitions : ∀ d ∈ p.definitions, d.Tidy
  problem : ∀ problem ∈ p.problem, OneLine problem.message

theorem Progress.tidy_upTo {n : Nat} {before : List Definition} {ts : List Token} (hbefore : ∀ d ∈ before, d.Tidy)
    (hts : ∀ t ∈ ts, t.Tidy) : (upTo n before ts).Tidy := by
  induction n generalizing before ts with
  | zero =>
    refine ⟨hbefore, ?_⟩
    rintro _ ⟨⟩
    exact oneLine_missingEndOfFile
  | succ n ih =>
    have hread := Definition.tidy_read? ts hts
    rw [upTo_succ]
    split
    · rename_i problem rest hr
      rw [hr] at hread
      refine ⟨hbefore, ?_⟩
      rintro _ ⟨⟩
      exact hread
    · exact ⟨hbefore, by simp⟩
    · rename_i name d rest hr
      rw [hr] at hread
      have hd : d.Tidy := hread.1 _ rfl
      split
      · refine ⟨hbefore, ?_⟩
        rintro _ ⟨⟩
        exact oneLine_message_iff.2 (List.forall_mem_singleton.2 hd.name)
      · exact ih (List.forall_mem_append.2 ⟨hbefore, List.forall_mem_singleton.2 hd⟩) hread.2

namespace Schema

variable {text ns : String} {tokens : List Token} {problem : Diagnostic}

theorem tidy_terminated (h : ∀ t ∈ tokens, t.Tidy) : ∀ t ∈ Token.terminated tokens, t.Tidy := by
  rw [Token.terminated]
  split
  · exact List.forall_mem_singleton.2 (Token.tidy_endOfFile _)
  · split
    · exact h
    · exact List.forall_mem_append.2 ⟨h, List.forall_mem_singleton.2 (Token.tidy_endOfFile _)⟩

/-- A schema with tidy definitions, or a problem with a message of one line. -/
def TidyOutcome : Except Diagnostic Schema → Prop
  | .ok s => ∀ d ∈ s.definitions, d.Tidy
  | .error problem => OneLine problem.message

theorem tidyOutcome_ofTokens (h : ∀ t ∈ tokens, t.Tidy) (ns : String) : TidyOutcome (ofTokens tokens ns) := by
  have hp : (Progress.ofTokens (Token.terminated tokens)).Tidy :=
    Progress.tidy_upTo (List.forall_mem_nil _) (tidy_terminated h)
  rw [ofTokens, Progress.finish]
  split
  · rename_i problem hproblem
    exact hp.problem problem hproblem
  · cases hr : Definition.resolve (Progress.ofTokens (Token.terminated tokens)).definitions with
    | ok _ => exact hp.definitions
    | error problem => exact Definition.oneLine_of_resolve hp.definitions hr

theorem tidyOutcome_ofText (text ns : String) : TidyOutcome (ofText text ns) := by
  cases h : Token.ofText text 0 with
  | error problem =>
    rw [ofText_error h]
    exact Token.oneLine_of_ofText h
  | ok tokens =>
    rw [ofText_eq h]
    refine tidyOutcome_ofTokens (List.forall_mem_append.2 ⟨Token.tidy_of_ofText h, ?_⟩) ns
    exact List.forall_mem_singleton.2 (Token.tidy_endOfFile _)

/-- The message of a text that is not compiled is on one line, unless the first invalid attribute is an opcode in quotes
with a control character. This is in the message as it is. -/
theorem compileText_oneLine (h : compileText text ns = .error problem) :
    ¬ OneLine problem.message ↔ ∃ s d value reason, ofText text ns = .ok s ∧
      Definition.FirstInvalid Definition.attributes s.definitions d (.opcode value false) ∧
        (Attribute.opcode value false).invalid? = some reason ∧
          problem = .invalidAttribute "opcode" reason d.name d.span ∧ ¬ OneLine value := by
  constructor
  · intro hlines
    have hread := tidyOutcome_ofText text ns
    cases hs : ofText text ns with
    | error p =>
      rw [compileText, compileSources_eq, ← ofText, hs] at h
      obtain rfl : p = problem := Except.error.inj h
      rw [hs] at hread
      exact absurd hread hlines
    | ok s =>
      by_cases hvalid : ∀ d ∈ s.definitions, ∀ a ∈ d.attributes, a.IsValid
      · rw [compileText, compileSources_of_isValid hs hvalid] at h
        cases h
      · obtain ⟨d, a, reason, hfirst, hreason, hcompiled⟩ := compileSources_of_not_isValid hs hvalid
        obtain rfl := Except.error.inj (hcompiled.symm.trans h)
        obtain ⟨value, isNumber, rfl, -⟩ := Attribute.exists_opcode hfirst.not_isValid
        obtain ⟨hd, ha⟩ := hfirst.mem
        rw [hs] at hread
        have htidy : d.Tidy := hread d hd
        have hvalue : ¬ OneLine value := by
          intro hv
          refine hlines (oneLine_message_iff.2 ?_)
          simp +decide [Diagnostic.inserts, Attribute.keyword, htidy.name, (Attribute.oneLine_reason_iff hreason).2 hv]
        -- A number is on one line, so the opcode is a string.
        cases isNumber with
        | true => exact absurd (htidy.attributes _ ha value rfl) hvalue
        | false => exact ⟨s, d, value, reason, rfl, hfirst, hreason, rfl, hvalue⟩
  · rintro ⟨s, d, value, reason, -, -, hreason, rfl, hvalue⟩ hmessage
    have hline := oneLine_message_iff.1 hmessage reason (by simp [Diagnostic.inserts])
    exact hvalue ((Attribute.oneLine_reason_iff hreason).1 hline)

/-- An opcode over two lines. -/
theorem compileText_oneLine_lineFeed :
    let text := "[opcode('a\nb')] struct A \x7b \x7d"
    ∃ problem, compileText text "N" = .error problem ∧ ¬ OneLine problem.message ∧
      ∃ s d value reason, ofText text "N" = .ok s ∧
        Definition.FirstInvalid Definition.attributes s.definitions d (.opcode value false) ∧
          (Attribute.opcode value false).invalid? = some reason ∧
            problem = .invalidAttribute "opcode" reason d.name d.span ∧ ¬ OneLine value := by
  intro text
  let reason := "\"a\nb\" is not a valid FourCC; string opcodes must be exactly four ASCII characters"
  let problem : Diagnostic := .invalidAttribute "opcode" reason "A" ⟨0, ⟨23, 2, 13⟩, ⟨28, 2, 18⟩⟩
  have h : compileText text "N" = .error problem := by decide +kernel
  have hlines : ¬ OneLine problem.message := fun hline =>
    absurd (oneLine_message_iff.1 hline reason (by simp [problem, Diagnostic.inserts])) (by decide)
  exact ⟨problem, h, hlines, (compileText_oneLine h).1 hlines⟩

/-- So not all messages are on one line, even where the text is: here, the line feed is written with an escape. -/
theorem not_oneLine_message :
    ¬ ∀ text ns problem, compileText text ns = .error problem → OneLine problem.message := by
  intro hall
  let reason := "\"a\nb\" is not a valid FourCC; string opcodes must be exactly four ASCII characters"
  have hline := hall "[opcode(\"a\\nb\")] struct A \x7b \x7d" "N"
    (.invalidAttribute "opcode" reason "A" ⟨0, ⟨24, 1, 25⟩, ⟨29, 1, 30⟩⟩) (by decide +kernel)
  exact absurd (oneLine_message_iff.1 hline reason (by simp [Diagnostic.inserts])) (by decide)

end Schema

end SchemaLang
