import SchemaLang.Proofs.Extents
import SchemaLang.Proofs.Promptness

/-!
# Places for numbers

The tokens in front of a number say what it is there for.

* `TokenReader.AtNumber` lists what may come of reading tokens behind which a number comes. Reading stops in front of
  the number, or it finds a number where something else has to be, or it wants one, and then a number out of range is
  the problem. Which of them it is depends neither on the number nor on anything behind it.
* The argument of an attribute may be any number, so this is about places that are not behind an opening parenthesis
  (`Token.OutsideArgument`). `TokenReader.Exacting` says it of all such places in front of which a reader may stand.
* Every construct of the grammar is exacting (`Definition.exacting_read?`), and so is the reading of all definitions
  (`Progress.exacting_readAll`).
* Main result: `Schema.atNumber`.
-/

namespace SchemaLang

/-- Tokens behind which there is no place for the argument of an attribute. -/
def Token.OutsideArgument (ts : List Token) : Prop := ∀ t ∈ ts.getLast?, t.kind ≠ .openParenthesis

instance (ts : List Token) : Decidable (Token.OutsideArgument ts) :=
  inferInstanceAs (Decidable (∀ t ∈ ts.getLast?, t.kind ≠ .openParenthesis))

theorem Token.OutsideArgument.of_suffix {ts rest : List Token} (h : OutsideArgument ts) (hs : rest <:+ ts) :
    OutsideArgument rest := by
  obtain ⟨us, rfl⟩ := hs
  intro t ht
  refine h t ?_
  rw [Option.mem_def] at ht ⊢
  rw [List.getLast?_append, ht, Option.some_or]

namespace TokenReader

variable {α β : Type} {pre rest : List Token} {n : Nat}

/-! ## Reading up to a number -/

/-- A reader that gives a value in front of a number, whatever number it is and whatever comes after it. -/
def GivesAtNumber (read : TokenReader α) (pre : List Token) (a : α) (rest : List Token) : Prop :=
  ∀ (t : TokenOf .number) (us : List Token), read (pre ++ t.token :: us) = .done a (rest ++ t.token :: us)

/-- What comes of reading tokens behind which a number comes, whatever number it is and whatever comes after it. -/
inductive AtNumber (read : TokenReader α) (pre : List Token) : Prop where
  | done (a : α) (rest : List Token) (suffix : rest <:+ pre) (gives : GivesAtNumber read pre a rest)
  | failed (problem : Diagnostic) (rest : List Token)
      (fails : ∀ (t : TokenOf .number) (us : List Token),
        read (pre ++ t.token :: us) = .failed problem (rest ++ t.token :: us))
  | refused (expected : List TokenKind) (hint : Option String) (other : .number ∉ expected)
      (fails : ∀ (t : TokenOf .number) (us : List Token),
        read (pre ++ t.token :: us) = .failed (.unexpectedToken expected t.token hint) (t.token :: us))
  | wanted (fails : ∀ (t : TokenOf .number) (us : List Token), Text.signed32? t.token.lexeme.toList = none →
      read (pre ++ t.token :: us) = .failed (.invalidNumber t.token.lexeme t.token.span) us)

/-- Readers that do the same at a number come to the same there. -/
theorem AtNumber.congr {read read' : TokenReader α} {pre rest : List Token} (h : AtNumber read' rest)
    (hs : rest <:+ pre) (heq : ∀ (t : TokenOf .number) (us : List Token),
      read (pre ++ t.token :: us) = read' (rest ++ t.token :: us)) : AtNumber read pre := by
  cases h with
  | done a rest' hs' h => exact .done a rest' (hs'.trans hs) fun t us => (heq t us).trans (h t us)
  | failed problem rest' h => exact .failed problem rest' fun t us => (heq t us).trans (h t us)
  | refused expected hint other h => exact .refused expected hint other fun t us => (heq t us).trans (h t us)
  | wanted h => exact .wanted fun t us ht => (heq t us).trans (h t us ht)

theorem AtNumber.bind {read : TokenReader α} {next : α → TokenReader β} (hr : AtNumber read pre)
    (hn : ∀ a rest, rest <:+ pre → GivesAtNumber read pre a rest → AtNumber (next a) rest) :
    AtNumber (read >>= next) pre := by
  cases hr with
  | done a rest hs h => exact (hn a rest hs h).congr hs fun t us => by rw [bind_apply, h t us]
  | failed problem rest h => exact .failed problem rest fun t us => by rw [bind_apply, h t us]
  | refused expected hint other h => exact .refused expected hint other fun t us => by rw [bind_apply, h t us]
  | wanted h => exact .wanted fun t us ht => by rw [bind_apply, h t us ht]

/-! ## Exacting readers -/

/-- A reader that settles in front of fewer than `n` tokens what a number behind them is there for, unless it is an
argument. -/
def Exacting (n : Nat) (read : TokenReader α) : Prop :=
  ∀ ⦃pre⦄, pre.length < n → Token.OutsideArgument pre → AtNumber read pre

theorem Exacting.mono {m : Nat} {read : TokenReader α} (h : Exacting n read) (hm : m ≤ n) : Exacting m read :=
  fun _ hl ho => h (Nat.lt_of_lt_of_le hl hm) ho

theorem Exacting.bind {read : TokenReader α} {next : α → TokenReader β} (hr : Exacting n read)
    (hn : ∀ a, Exacting n (next a)) : Exacting n (read >>= next) := fun _ hl ho =>
  (hr hl ho).bind fun a _ hs _ => hn a (Nat.lt_of_le_of_lt hs.length_le hl) (ho.of_suffix hs)

theorem Exacting.pure (a : α) : Exacting n (Pure.pure a) :=
  fun pre _ _ => .done a pre (List.suffix_refl pre) fun _ _ => rfl

theorem Exacting.fail {problem : Diagnostic} : Exacting n (fail problem : TokenReader α) :=
  fun pre _ _ => .failed problem pre fun _ _ => rfl

theorem AtNumber.eat? {kind : TokenKind} (h : kind ≠ .number) (pre : List Token) : AtNumber (eat? kind) pre := by
  cases pre with
  | nil => exact .done none [] (List.suffix_refl _) fun t us => eat?_of_kind_ne (by simpa [t.kind_eq] using h.symm)
  | cons t ts =>
    by_cases hk : t.kind = kind
    · exact .done (some t) ts (List.suffix_cons t ts) fun _ _ => eat?_of_kind hk
    · exact .done none (t :: ts) (List.suffix_refl _) fun _ _ => eat?_of_kind_ne hk

theorem Exacting.eat? {kind : TokenKind} (h : kind ≠ .number) : Exacting n (eat? kind) := fun pre _ _ => .eat? h pre

/-- Where another token comes in front of the number, that one is taken or refused. -/
theorem AtNumber.take_cons (kinds : List TokenKind) (hint : Option String) (t : Token) (ts : List Token) :
    AtNumber (take kinds hint) (t :: ts) := by
  by_cases hk : t.kind ∈ kinds
  · exact .done t ts (List.suffix_cons t ts) fun _ _ => take_eq_done_iff.2 ⟨rfl, hk⟩
  · exact .failed (.unexpectedToken kinds t hint) (t :: ts) fun _ _ => by simp [TokenReader.take, hk]

theorem Exacting.take {kinds : List TokenKind} {hint : Option String} (h : .number ∉ kinds) :
    Exacting n (take kinds hint) := by
  intro pre _ _
  cases pre with
  | nil => exact .refused kinds hint h fun t us => by simp [TokenReader.take, t.kind_eq, h]
  | cons t ts => exact .take_cons kinds hint t ts

/-- The comments under the cursor end in front of a number. -/
theorem dropWhile_append_number (pre : List Token) (t : TokenOf .number) (us : List Token) :
    (pre ++ t.token :: us).dropWhile Token.isComment = pre.dropWhile Token.isComment ++ t.token :: us ∧
      (pre ++ t.token :: us).takeWhile Token.isComment = pre.takeWhile Token.isComment := by
  have ht := t.isComment_eq_false (by decide)
  induction pre with
  | nil => simp [ht]
  | cons c cs ih =>
    simp only [List.cons_append, List.dropWhile_cons, List.takeWhile_cons, ih]
    split <;> simp

theorem AtNumber.skipComments (pre : List Token) : AtNumber skipComments pre :=
  .done () _ (List.dropWhile_suffix Token.isComment) fun t us => by
    rw [TokenReader.skipComments, (dropWhile_append_number pre t us).1]

theorem Exacting.skipComments : Exacting n skipComments := fun pre _ _ => .skipComments pre

theorem Exacting.lastComment : Exacting n lastComment := fun pre _ _ =>
  .done _ _ (List.dropWhile_suffix Token.isComment) fun t us => by
    rw [TokenReader.lastComment, (dropWhile_append_number pre t us).1, (dropWhile_append_number pre t us).2]

theorem Exacting.expect {kind : TokenKind} {hint : Option String} (h : kind ≠ .number) :
    Exacting n (expect kind hint) :=
  .bind .skipComments fun _ => .take (by simpa using h.symm)

/-- A number is wanted, and it is refused if it is out of range. -/
theorem Exacting.expect_number {hint : Option String} {next : Token → TokenReader α}
    (h : ∀ (t : TokenOf .number) (us : List Token), Text.signed32? t.token.lexeme.toList = none →
      next t.token us = .failed (.invalidNumber t.token.lexeme t.token.span) us)
    (hn : ∀ token, Exacting n (next token)) : Exacting n (TokenReader.expect .number hint >>= next) := by
  intro pre hl ho
  have hs := List.dropWhile_suffix Token.isComment (l := pre)
  have heq : ∀ (t : TokenOf .number) (us : List Token),
      (TokenReader.expect .number hint >>= next) (pre ++ t.token :: us) =
        (TokenReader.take [.number] hint >>= next) (pre.dropWhile Token.isComment ++ t.token :: us) := fun t us => by
    rw [← (dropWhile_append_number pre t us).1]
    rfl
  refine AtNumber.congr ?_ hs heq
  cases hts : pre.dropWhile Token.isComment with
  | nil => exact .wanted fun t us ht => by simp [bind_apply, TokenReader.take, t.kind_eq, h t us ht]
  | cons u ts =>
    rw [hts] at hs
    refine (AtNumber.take_cons [.number] hint u ts).bind fun token rest hs' _ => ?_
    exact hn token (Nat.lt_of_le_of_lt (hs'.trans hs).length_le hl) (ho.of_suffix (hs'.trans hs))

/-- Looking at the token under the cursor, where it makes no difference which number it is. -/
theorem Exacting.current {next : Token → TokenReader β} {atNumber : TokenReader β} (hnext : ∀ t, Exacting n (next t))
    (hnumber : ∀ t : TokenOf .number, next t.token = atNumber) (h : Exacting n atNumber) :
    Exacting n (current >>= next) := by
  intro pre hl ho
  cases pre with
  | nil =>
    refine (h hl ho).congr (List.suffix_refl _) fun t us => ?_
    rw [← hnumber t]
    rfl
  | cons t ts => exact (hnext t hl ho).congr (List.suffix_refl _) fun _ _ => rfl

/-- Tokens of another kind are looked for. -/
theorem Exacting.unless {kind : TokenKind} {stop read : TokenReader β} (h : kind ≠ .number) (hstop : Exacting n stop)
    (hread : Exacting n read) : Exacting n (TokenReader.current >>= fun t => if t.kind = kind then stop else read) := by
  refine .current (fun t => ?_) (fun t => ?_) hread
  · split
    · exact hstop
    · exact hread
  · rw [if_neg (by simpa [t.kind_eq] using h.symm)]

/-- A reader that takes a token with each item can be repeated. -/
theorem Exacting.many {item? : TokenReader (Option α)} (progress : Progresses item?) (h : Exacting n item?) :
    Exacting n (many item?) := by
  induction n with
  | zero => exact fun pre hl => absurd hl (Nat.not_lt_zero _)
  | succ n ih =>
    intro pre hl ho
    rw [funext (many_eq progress)]
    refine (h hl ho).bind fun a? rest hs hg => ?_
    cases a? with
    | none => exact Exacting.pure [] (Nat.lt_succ_self _) (ho.of_suffix hs)
    | some a =>
      have hlt := progress (hg ⟨⟨.number, "", Span.zero⟩, rfl⟩ [])
      simp only [List.length_append] at hlt
      have hm : Exacting n (TokenReader.many item?) := ih (h.mono (Nat.le_succ n))
      exact (hm.bind fun as => .pure (a :: as)) (by omega) (ho.of_suffix hs)

end TokenReader

open TokenReader

variable {n : Nat}

/-! ## Types -/

namespace FieldType

theorem exacting_readSuffix? : Exacting n readSuffix? := by
  refine .bind (.eat? (by decide)) fun o => ?_
  cases o with
  | none => exact .pure none
  | some t => exact .bind (.expect (by decide)) fun closing => .pure (some closing.span)

theorem exacting_readMap (word : Token) (h : Exacting n read) : Exacting n (readMap read word) := by
  refine .bind (.expect (by decide)) fun _ => .bind h fun key => ?_
  split
  · exact .bind (.expect (by decide)) fun _ => .bind h fun _ => .bind (.expect (by decide)) fun _ => .pure _
  · exact .fail

theorem exacting_readArray (word : Token) (h : Exacting n read) : Exacting n (readArray read word) :=
  .bind (.expect (by decide)) fun _ => .bind h fun _ => .bind (.expect (by decide)) fun _ => .pure _

/-- The types inside a type start behind its first token. -/
theorem exacting_readBase (h : Exacting n read) : Exacting (n + 1) (readBase read) := by
  intro pre hl ho
  refine (AtNumber.eat? (by decide) pre).bind fun m ts hs hm => ?_
  cases m with
  | some word =>
    obtain ⟨_, rfl, ht⟩ := exists_of_eat?_some (hm ⟨⟨.number, "", Span.zero⟩, rfl⟩ [])
    have hlen := congrArg List.length ht
    simp only [List.length_append, List.length_cons] at hlen
    exact exacting_readMap _ h (by omega) (ho.of_suffix hs)
  | none =>
    refine (AtNumber.eat? (by decide) ts).bind fun a us hs' ha => ?_
    cases a with
    | some word =>
      obtain ⟨_, rfl, ht⟩ := exists_of_eat?_some (ha ⟨⟨.number, "", Span.zero⟩, rfl⟩ [])
      have hlen := congrArg List.length ht
      have hle := hs.length_le
      simp only [List.length_append, List.length_cons] at hlen
      exact exacting_readArray _ h (by omega) (ho.of_suffix (hs'.trans hs))
    | none =>
      have hl := Nat.lt_of_le_of_lt (hs'.trans hs).length_le hl
      exact (Exacting.bind (.expect (by decide)) fun name => .pure (ofName name)) hl (ho.of_suffix (hs'.trans hs))

/-- Reading a type is exacting, by induction on the number of tokens in front of the number. -/
theorem exacting_read : ∀ n : Nat, Exacting n read
  | 0, _, hl, _ => absurd hl (Nat.not_lt_zero _)
  | n + 1, pre, hl, ho => by
    rw [read_eq]
    exact (Exacting.bind .skipComments fun _ => .bind (exacting_readBase (exacting_read n)) fun base =>
      .bind (.many progresses_readSuffix? exacting_readSuffix?) fun closings =>
        .pure (base.withSuffixes closings)) hl ho

end FieldType

/-! ## Attributes -/

namespace Attribute

/-- The opening parenthesis is not the last token in front of the number, so the argument is another token. -/
theorem exacting_readArgument (keyword : String) : Exacting n (readArgument keyword) := by
  intro pre hl ho
  refine (AtNumber.eat? (by decide) pre).bind fun o ts hs hg => ?_
  cases o with
  | none => exact Exacting.pure _ (Nat.lt_of_le_of_lt hs.length_le hl) (ho.of_suffix hs)
  | some t =>
    obtain ⟨u, rfl, hu⟩ := exists_of_eat?_some (hg ⟨⟨.number, "", Span.zero⟩, rfl⟩ [])
    obtain rfl : pre = u.token :: ts := List.append_cancel_right hu
    cases ts with
    | nil => exact absurd u.kind_eq (ho u.token rfl)
    | cons literal ts =>
      refine (AtNumber.take_cons (argumentKinds keyword) none literal ts).bind fun a rest hs' _ => ?_
      exact (Exacting.bind (.expect (by decide)) fun _ => .pure (a.lexeme, decide (a.kind = .number)))
        (Nat.lt_of_le_of_lt (hs'.trans hs).length_le hl) (ho.of_suffix (hs'.trans hs))

theorem exacting_read? : Exacting n read? := by
  refine .bind (.eat? (by decide)) fun o => ?_
  cases o with
  | none => exact .pure none
  | some t =>
    refine .bind (.expect (by decide)) fun name => .bind (exacting_readArgument _) fun value =>
      .bind (.expect (by decide)) fun _ => ?_
    cases ofKeyword? name.lexeme value.1 value.2 with
    | none => exact .fail
    | some a => exact .pure (some a)

end Attribute

/-! ## Fields -/

namespace Field

theorem exacting_readInteger (hint : String) : Exacting n (readInteger hint) := by
  refine .expect_number (fun t us ht => ?_) fun token => ?_
  · rw [ht]
    rfl
  · cases Text.signed32? token.lexeme.toList with
    | none => exact .fail
    | some v => exact .pure v

theorem exacting_readIndex (kind : DefinitionKind) : Exacting n (readIndex kind) := by
  cases kind with
  | enum | struct => exact .pure 0
  | message =>
    exact .bind (exacting_readInteger _) fun index =>
      .bind (.expect (by decide)) fun _ => .bind (.expect (by decide)) fun _ => .pure index

theorem exacting_readType (owner : Token) (kind : DefinitionKind) : Exacting n (readType owner kind) := by
  cases kind with
  | enum => exact .pure _
  | struct | message => exact FieldType.exacting_read n

/-- A number is no reserved word, but no name either. -/
theorem exacting_readName : Exacting n readName := by
  have hexpect : Exacting n (expect .identifier none) := .expect (by decide)
  refine .bind .skipComments fun _ => .current (fun t => ?_) (fun t => ?_) hexpect
  · split
    · exact .fail
    · exact hexpect
  · have hr : isReserved t.token = false := by simp [isReserved, t.kind_eq, TokenKind.isKeyword, keywords]
    simp only [hr, Bool.false_eq_true, if_false]

theorem exacting_readConstant (index : Int) (kind : DefinitionKind) : Exacting n (readConstant index kind) := by
  cases kind with
  | enum => exact .bind (.expect (by decide)) fun _ => exacting_readInteger _
  | struct | message => exact .pure index

theorem exacting_read (kind : DefinitionKind) (owner : Token) (documentation : String) :
    Exacting n (read kind owner documentation) :=
  .bind Attribute.exacting_read? fun _ => .bind (exacting_readIndex kind) fun index =>
    .bind (exacting_readType owner kind) fun _ => .bind exacting_readName fun _ =>
      .bind (exacting_readConstant index kind) fun _ => .bind (.expect (by decide)) fun _ => .pure _

theorem exacting_read? (kind : DefinitionKind) (owner : Token) : Exacting n (read? kind owner) := by
  refine .bind .lastComment fun documentation => ?_
  have hf : Exacting n (do return some (← read kind owner documentation)) :=
    .bind (exacting_read kind owner documentation) fun f => .pure (some f)
  exact .unless (by decide) (.pure none) hf

end Field

/-! ## Definitions -/

theorem DefinitionKind.exacting_read : Exacting n read := by
  intro pre _ _
  cases pre with
  | nil =>
    refine .refused [.enum, .struct, .message] none (by decide) fun t us => ?_
    simp [read, bind_apply, current, ofKeyword?, t.kind_eq, fail]
  | cons t ts =>
    cases hk : ofKeyword? t.kind with
    | some kind =>
      refine .done kind ts (List.suffix_cons t ts) fun _ _ => ?_
      simp [read, bind_apply, current, hk, advance, pure_apply]
    | none =>
      refine .failed (.unexpectedToken [.enum, .struct, .message] t none) (t :: ts) fun _ _ => ?_
      simp [read, bind_apply, current, hk, fail]

/-- A number does not end the file, and it starts no definition. -/
theorem Definition.exacting_read? : Exacting n read? := by
  refine .bind .lastComment fun documentation => .unless (by decide) (.pure none) ?_
  exact .bind (.many Attribute.progresses_read? Attribute.exacting_read?) fun _ => .bind (.eat? (by decide)) fun _ =>
    .bind DefinitionKind.exacting_read fun kind =>
      .bind (.expect (by decide)) fun name => .bind (.expect (by decide)) fun _ =>
        .bind (.many (Field.progresses_read? kind name) (Field.exacting_read? kind name)) fun _ =>
          .bind (.expect (by decide)) fun _ => .pure _

/-! ## Definitions one after the other -/

namespace Progress

/-- All definitions at the front, behind given ones. -/
def readAll (before : List Definition) : TokenReader (List Definition) := fun ts =>
  (upTo (ts.length + 1) before ts).reading

/-- A definition is read, and then the others. -/
theorem readAll_eq (before : List Definition) : readAll before = Definition.read? >>= fun
    | none => return before
    | some (name, d) =>
      if before.any fun e => e.name = d.name then fail (.multipleDefinitions d.name name.span)
      else readAll (before ++ [d]) := by
  funext ts
  refine (congrFun (reading_upTo ts.length before) ts).trans (bind_congr rfl fun d? rest h => ?_)
  cases d? with
  | none => rfl
  | some d =>
    obtain ⟨e, _, _, rfl⟩ := Definition.exists_of_read? h
    have he := e.length_tokens
    have hlt : rest.length < (e.tokens ++ rest).length := by
      rw [List.length_append]
      omega
    have hrest : upTo (e.tokens ++ rest).length (before ++ [d.2]) rest =
        upTo (rest.length + 1) (before ++ [d.2]) rest := upTo_congr hlt (Nat.lt_succ_self _)
    simp only [readFollowing, hrest]
    split <;> rfl

/-- Reading definitions is exacting, by induction on the number of tokens in front of the number. -/
theorem exacting_readAll : ∀ (n : Nat) (before : List Definition), Exacting n (readAll before)
  | 0, _, _, hl, _ => absurd hl (Nat.not_lt_zero _)
  | n + 1, before, pre, hl, ho => by
    rw [readAll_eq]
    refine (Definition.exacting_read? hl ho).bind fun d? rest hs hg => ?_
    cases d? with
    | none => exact Exacting.pure before (Nat.lt_succ_self _) (ho.of_suffix hs)
    | some d =>
      obtain ⟨e, _, _, ht⟩ := Definition.exists_of_read? (hg ⟨⟨.number, "", Span.zero⟩, rfl⟩ [])
      have he := e.length_tokens
      have hlen := congrArg List.length ht
      simp only [List.length_append] at hlen
      simp only
      split
      · exact Exacting.fail (Nat.lt_succ_self _) (ho.of_suffix hs)
      · exact exacting_readAll n _ (by omega) (ho.of_suffix hs)

/-- Without a problem the cursor comes to the end of the file. -/
theorem exists_of_reading : ∀ {n : Nat} {before after : List Definition} {ts rest : List Token},
    (upTo n before ts).reading = .done after rest → ∃ (e : TokenOf .endOfFile) (us : List Token), rest = e.token :: us
  | 0, _, _, _, _, h => absurd h fail_ne_done
  | n + 1, before, after, ts, rest, h => by
    rw [congrFun (reading_upTo n before) ts] at h
    obtain ⟨d?, mid, hd, hn⟩ := bind_eq_done_iff.1 h
    cases d? with
    | none =>
      obtain ⟨cs, e, us, rfl, _⟩ := Definition.exists_of_read?_none hd
      exact ⟨e, us, (Reading.done.inj hn).2.symm⟩
    | some d =>
      rcases readFollowing_some n before d with heq | heq
      · rw [heq] at hn
        exact absurd hn fail_ne_done
      · rw [heq] at hn
        exact exists_of_reading hn

end Progress

/-! ## Schemas -/

/-- No type ends with a number. -/
theorem FieldType.Derivation.kind_last (d : Derivation) : d.last.kind ≠ .number := by
  cases d with
  | name word => simp [last, word.kind_eq]
  | map word opening key comma value closing => simp [last, closing.kind_eq]
  | array word opening element closing => simp [last, closing.kind_eq]
  | suffix element brackets => simp [last, brackets.closing.kind_eq]

/-- A problem that is not at the place of a number is about the tokens in front of the number. -/
theorem Diagnostic.Concerns.of_append_number {pre : List Token} {t : TokenOf .number} {problem : Diagnostic}
    (h : problem.Concerns (pre ++ [t.token])) (hs : problem.span? ≠ some t.token.span) : problem.Concerns pre := by
  have hmem : ∀ {u : Token}, u ∈ pre ++ [t.token] → problem.span? = some u.span → u ∈ pre := fun hu hspan => by
    rcases List.mem_append.1 hu with hu | hu
    · exact hu
    · rw [List.mem_singleton.1 hu] at hspan
      exact absurd hspan hs
  cases h with
  | unexpectedToken mem expected hint => exact .unexpectedToken (hmem mem rfl) expected hint
  | unknownAttribute u mem => exact .unknownAttribute u (hmem mem rfl)
  | reservedIdentifier mem reserved => exact .reservedIdentifier (hmem mem rfl) reserved
  | multipleDefinitions u mem => exact .multipleDefinitions u (hmem mem rfl)
  | unrecognizedType u mem usedIn => exact .unrecognizedType u (hmem mem rfl) usedIn
  | invalidNumber u mem => exact .invalidNumber u (hmem mem rfl)
  | invalidMapKey d mem =>
    rcases List.infix_concat_iff.1 mem with hd | hd
    · obtain ⟨ts, hts⟩ := hd
      have hlast := congrArg List.getLast? hts
      rw [List.getLast?_append, d.getLast?_tokens, List.getLast?_concat, Option.some_or, Option.some.injEq] at hlast
      exact absurd t.kind_eq (hlast ▸ d.kind_last)
    · exact .invalidMapKey d hd

namespace Schema

/-- What comes of reading a schema from tokens behind which a number comes, whatever number it is and whatever comes
after it. -/
inductive AtNumber (pre : List Token) (ns : String) : Prop where
  | failed (problem : Diagnostic) (concerns : problem.Concerns pre)
      (fails : ∀ (t : TokenOf .number) (us : List Token), ofTokens (pre ++ t.token :: us) ns = .error problem)
  | refused (expected : List TokenKind) (hint : Option String) (other : .number ∉ expected)
      (fails : ∀ (t : TokenOf .number) (us : List Token),
        ofTokens (pre ++ t.token :: us) ns = .error (.unexpectedToken expected t.token hint))
  | wanted (fails : ∀ (t : TokenOf .number) (us : List Token), Text.signed32? t.token.lexeme.toList = none →
      ofTokens (pre ++ t.token :: us) ns = .error (.invalidNumber t.token.lexeme t.token.span))

/-- A problem with the definitions is the problem of the schema. -/
theorem ofTokens_of_readAll {pre us : List Token} {t : Token} {problem : Diagnostic} (ns : String)
    (h : ∀ vs, ∃ rest, Progress.readAll [] (pre ++ t :: vs) = .failed problem rest) :
    ofTokens (pre ++ t :: us) ns = .error problem := by
  obtain ⟨vs, hvs⟩ := Token.exists_terminated_append pre t us
  obtain ⟨rest, hrest⟩ := h vs
  rw [ofTokens, hvs, Progress.finish, Progress.ofTokens, (Progress.reading_eq_failed_iff.1 hrest).1]

/-- A problem that is the same at all numbers is about the tokens in front of them. -/
theorem concerns_of_numbers {pre : List Token} (hpre : Unended pre) {ns : String} {problem : Diagnostic}
    (h : ∀ (t : TokenOf .number) (us : List Token), ofTokens (pre ++ t.token :: us) ns = .error problem) :
    problem.Concerns pre := by
  -- a number with another place than that of the problem
  obtain ⟨t, ht⟩ : ∃ t : TokenOf .number, problem.span? ≠ some t.token.span := by
    let place : Span := Span.point (problem.span?.elim 0 fun span => span.file + 1) Position.start
    refine ⟨⟨⟨.number, "", place⟩, rfl⟩, fun hspan => ?_⟩
    have hfile : place.file = problem.span?.elim 0 fun span => span.file + 1 := rfl
    rw [hspan] at hfile
    exact absurd hfile (Nat.ne_of_lt (Nat.lt_succ_self _))
  have hun : Unended (pre ++ [t.token]) := fun u hu => by
    rcases List.mem_append.1 hu with hu | hu
    · exact hpre u hu
    · rw [List.mem_singleton.1 hu, t.kind_eq]
      decide
  have hend : ∀ e : TokenOf .endOfFile, problem.Concerns (pre ++ [t.token]) ∨
      ∃ expected hint, problem = .unexpectedToken expected e.token hint := fun e =>
    concerns_of_ofTokens hun e ((List.append_cons pre t.token [e.token]) ▸ h t [e.token])
  rcases hend ⟨Token.endOfFile Span.zero, rfl⟩ with hc | ⟨_, _, rfl⟩
  · exact hc.of_append_number ht
  · -- an end of file that is not expected would be the same at all ends
    rcases hend ⟨Token.endOfFile (Span.point 1 Position.start), rfl⟩ with hc | ⟨_, _, heq⟩
    · exact hc.of_append_number ht
    · exact absurd heq (by simp [Token.endOfFile, Span.zero, Span.point])

/-- The tokens in front of a number decide whether they have a problem, whether no number may come, or whether one is
wanted that is in range. -/
theorem atNumber {pre : List Token} (hpre : Unended pre) (ho : Token.OutsideArgument pre) (ns : String) :
    AtNumber pre ns := by
  cases Progress.exacting_readAll (pre.length + 1) [] (Nat.lt_succ_self _) ho with
  | failed problem rest fails =>
    have h : ∀ (t : TokenOf .number) (us : List Token), ofTokens (pre ++ t.token :: us) ns = .error problem :=
      fun t us => ofTokens_of_readAll ns fun vs => ⟨_, fails t vs⟩
    exact .failed problem (concerns_of_numbers hpre h) h
  | refused expected hint other fails =>
    exact .refused expected hint other fun t us => ofTokens_of_readAll ns fun vs => ⟨_, fails t vs⟩
  | wanted fails => exact .wanted fun t us ht => ofTokens_of_readAll ns fun vs => ⟨_, fails t vs ht⟩
  | done after rest suffix gives =>
    -- the first token behind the definitions would end the file
    obtain ⟨e, us, heq⟩ := Progress.exists_of_reading (gives ⟨⟨.number, "", Span.zero⟩, rfl⟩ [])
    cases rest with
    | nil => exact absurd e.kind_eq (by rw [← (List.cons.inj heq).1]; decide)
    | cons u rest =>
      have hu := hpre u (suffix.subset List.mem_cons_self)
      exact absurd e.kind_eq ((List.cons.inj heq).1 ▸ hu)

end Schema

end SchemaLang
