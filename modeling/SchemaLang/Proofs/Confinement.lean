import SchemaLang.Proofs.Grammar.Schema

/-!
# Reading stays in front of the end of the file

No reader takes an end-of-file token or looks behind one.

* `TokenReader.Settled` lists what may come of reading from a place in front of the first end of file: a value, a
  problem with the tokens up to there, or an end of file where something else is expected. Which of them it is depends
  neither on the end-of-file token nor on anything behind it, and the cursor stays in front of that token.
* `TokenReader.Confined` says that a reader settles from all places of a token list. Every combinator keeps it
  (`Confined.bind`, `Confined.many`, ...), so every construct of the grammar has it (`Definition.confined_read?`).
* `Diagnostic.Concerns` says which tokens a problem is about.
* Main result: `Schema.ofTokens_confined`. The tokens never run out, and what follows the first end of file has no
  effect.
-/

namespace SchemaLang

/-- No token ends the file. -/
def Unended (ts : List Token) : Prop := ∀ t ∈ ts, t.kind ≠ .endOfFile

/-- A problem that is about certain tokens of a list. -/
inductive Diagnostic.Concerns (whole : List Token) : Diagnostic → Prop where
  | unexpectedToken {t : Token} (mem : t ∈ whole) (expected : List TokenKind) (hint : Option String) :
      Concerns whole (.unexpectedToken expected t hint)
  | unknownAttribute (t : TokenOf .identifier) (mem : t.token ∈ whole) :
      Concerns whole (.unknownAttribute t.token.lexeme t.token)
  | reservedIdentifier {t : Token} (mem : t ∈ whole) (reserved : Field.isReserved t = true) :
      Concerns whole (.reservedIdentifier t.lexeme t.span)
  | invalidMapKey (d : FieldType.Derivation) (mem : d.tokens <:+: whole) : Concerns whole (.invalidMapKey d.type)
  | multipleDefinitions (t : TokenOf .identifier) (mem : t.token ∈ whole) :
      Concerns whole (.multipleDefinitions t.token.lexeme t.token.span)
  | unrecognizedType (t : TokenOf .identifier) (mem : t.token ∈ whole) (usedIn : String) :
      Concerns whole (.unrecognizedType t.token.lexeme usedIn t.token.span)
  | invalidNumber (t : TokenOf .number) (mem : t.token ∈ whole) :
      Concerns whole (.invalidNumber t.token.lexeme t.token.span)

/-- Tokens that are there do not run out. -/
theorem Diagnostic.Concerns.ne_missingEndOfFile {whole : List Token} {problem : Diagnostic}
    (h : problem.Concerns whole) : problem ≠ .missingEndOfFile := by
  rintro rfl
  cases h

namespace TokenReader

variable {α β : Type} {whole pre rest : List Token} {n : Nat}

/-! ## Settled readings -/

/-- A reader that gives a value from a place, whatever ends the file and whatever comes after it. -/
def Gives (read : TokenReader α) (pre : List Token) (a : α) (rest : List Token) : Prop :=
  ∀ (e : TokenOf .endOfFile) (us : List Token), read (pre ++ e.token :: us) = .done a (rest ++ e.token :: us)

/-- What comes of reading from the last tokens of a list on, whatever ends the file and whatever comes after it. -/
inductive Settled (whole : List Token) (read : TokenReader α) (pre : List Token) : Prop where
  | done (a : α) (rest : List Token) (suffix : rest <:+ pre) (gives : Gives read pre a rest)
  | failed (problem : Diagnostic) (rest : List Token) (suffix : rest <:+ pre) (concerns : problem.Concerns whole)
      (fails : ∀ (e : TokenOf .endOfFile) (us : List Token),
        read (pre ++ e.token :: us) = .failed problem (rest ++ e.token :: us))
  | ended (expected : List TokenKind) (hint : Option String)
      (fails : ∀ (e : TokenOf .endOfFile) (us : List Token),
        read (pre ++ e.token :: us) = .failed (.unexpectedToken expected e.token hint) (e.token :: us))

theorem Settled.bind {read : TokenReader α} {next : α → TokenReader β} (hr : Settled whole read pre)
    (hn : ∀ a rest, rest <:+ pre → Gives read pre a rest → Settled whole (next a) rest) :
    Settled whole (read >>= next) pre := by
  cases hr with
  | done a rest hs h =>
    have hb : ∀ (e : TokenOf .endOfFile) (us : List Token),
        (read >>= next) (pre ++ e.token :: us) = next a (rest ++ e.token :: us) := fun e us => by
      rw [bind_apply, h e us]
    cases hn a rest hs h with
    | done b rest' hs' h' => exact .done b rest' (hs'.trans hs) fun e us => (hb e us).trans (h' e us)
    | failed problem rest' hs' hc h' =>
      exact .failed problem rest' (hs'.trans hs) hc fun e us => (hb e us).trans (h' e us)
    | ended expected hint h' => exact .ended expected hint fun e us => (hb e us).trans (h' e us)
  | failed problem rest hs hc h => exact .failed problem rest hs hc fun e us => by rw [bind_apply, h e us]
  | ended expected hint h => exact .ended expected hint fun e us => by rw [bind_apply, h e us]

/-! ## Confined readers -/

/-- A reader that settles from all places of a list with fewer than `n` tokens behind them. -/
def Confined (n : Nat) (whole : List Token) (read : TokenReader α) : Prop :=
  ∀ ⦃pre⦄, pre <:+ whole → pre.length < n → Settled whole read pre

/-- A value that a reader gives somewhere in a list. -/
def Given (whole : List Token) (read : TokenReader α) (a : α) : Prop :=
  ∃ pre rest, pre <:+ whole ∧ Gives read pre a rest

theorem Confined.bind {read : TokenReader α} {next : α → TokenReader β} (hr : Confined n whole read)
    (hn : ∀ a, Given whole read a → Confined n whole (next a)) : Confined n whole (read >>= next) := by
  intro pre hp hl
  refine (hr hp hl).bind fun a rest hs h => hn a ⟨pre, rest, hp, h⟩ (hs.trans hp) ?_
  exact Nat.lt_of_le_of_lt hs.length_le hl

theorem Confined.pure (a : α) : Confined n whole (Pure.pure a) :=
  fun pre _ _ => .done a pre (List.suffix_refl pre) fun _ _ => rfl

theorem Confined.fail {problem : Diagnostic} (h : problem.Concerns whole) :
    Confined n whole (fail problem : TokenReader α) :=
  fun pre _ _ => .failed problem pre (List.suffix_refl pre) h fun _ _ => rfl

theorem Confined.eat? {kind : TokenKind} (h : kind ≠ .endOfFile) : Confined n whole (eat? kind) := by
  intro pre _ _
  cases pre with
  | nil => exact .done none [] (List.suffix_refl _) fun e us => eat?_of_kind_ne (by simpa [e.kind_eq] using h.symm)
  | cons t ts =>
    by_cases hk : t.kind = kind
    · exact .done (some t) ts (List.suffix_cons t ts) fun _ _ => eat?_of_kind hk
    · exact .done none (t :: ts) (List.suffix_refl _) fun _ _ => eat?_of_kind_ne hk

theorem Confined.take {kinds : List TokenKind} {hint : Option String} (h : TokenKind.endOfFile ∉ kinds) :
    Confined n whole (take kinds hint) := by
  intro pre hp _
  cases pre with
  | nil => exact .ended kinds hint fun e us => by simp [TokenReader.take, e.kind_eq, h]
  | cons t ts =>
    by_cases hk : t.kind ∈ kinds
    · exact .done t ts (List.suffix_cons t ts) fun _ _ => take_eq_done_iff.2 ⟨rfl, hk⟩
    · have hc : Diagnostic.Concerns whole (.unexpectedToken kinds t hint) :=
        .unexpectedToken (hp.subset List.mem_cons_self) kinds hint
      exact .failed _ (t :: ts) (List.suffix_refl _) hc fun _ _ => by simp [TokenReader.take, hk]

/-- The comments under the cursor end before the file does. -/
theorem dropWhile_append_endOfFile (pre : List Token) (e : TokenOf .endOfFile) (us : List Token) :
    (pre ++ e.token :: us).dropWhile Token.isComment = pre.dropWhile Token.isComment ++ e.token :: us := by
  have he := e.isComment_eq_false (by decide)
  induction pre with
  | nil => simp [he]
  | cons t ts ih =>
    simp only [List.cons_append, List.dropWhile_cons]
    split
    · exact ih
    · rfl

theorem takeWhile_append_endOfFile (pre : List Token) (e : TokenOf .endOfFile) (us : List Token) :
    (pre ++ e.token :: us).takeWhile Token.isComment = pre.takeWhile Token.isComment := by
  have he := e.isComment_eq_false (by decide)
  induction pre with
  | nil => simp [he]
  | cons t ts ih =>
    simp only [List.cons_append, List.takeWhile_cons, ih]

theorem Confined.skipComments : Confined n whole skipComments := fun pre _ _ =>
  .done () _ (List.dropWhile_suffix Token.isComment) fun e us => by
    rw [TokenReader.skipComments, dropWhile_append_endOfFile]

theorem Confined.lastComment : Confined n whole lastComment := fun pre _ _ =>
  .done _ _ (List.dropWhile_suffix Token.isComment) fun e us => by
    rw [TokenReader.lastComment, dropWhile_append_endOfFile, takeWhile_append_endOfFile]

theorem Confined.expect {kind : TokenKind} {hint : Option String} (h : kind ≠ .endOfFile) :
    Confined n whole (expect kind hint) :=
  .bind .skipComments fun _ _ => .take (by simpa using h.symm)

/-- Looking at the token under the cursor, which may be an end of file; then it makes no difference which one. -/
theorem Confined.current {next : Token → TokenReader β} {atEnd : TokenReader β}
    (hnext : ∀ t ∈ whole, Confined n whole (next t)) (hend : ∀ e : TokenOf .endOfFile, next e.token = atEnd)
    (h : Confined n whole atEnd) : Confined n whole (current >>= next) := by
  intro pre hp hl
  cases pre with
  | nil =>
    have he : ∀ (e : TokenOf .endOfFile) (us : List Token),
        (TokenReader.current >>= next) ([] ++ e.token :: us) = atEnd ([] ++ e.token :: us) := fun e us => by
      rw [← hend e]
      rfl
    cases h hp hl with
    | done a rest hs h => exact .done a rest hs fun e us => (he e us).trans (h e us)
    | failed problem rest hs hc h => exact .failed problem rest hs hc fun e us => (he e us).trans (h e us)
    | ended expected hint h => exact .ended expected hint fun e us => (he e us).trans (h e us)
  | cons t ts =>
    have hc : Settled whole TokenReader.current (t :: ts) := .done t (t :: ts) (List.suffix_refl _) fun _ _ => rfl
    refine hc.bind fun a rest hs h => ?_
    obtain ⟨rfl, hr⟩ := Reading.done.inj (h ⟨Token.endOfFile Span.zero, rfl⟩ [])
    exact hnext t (hp.subset List.mem_cons_self) (hs.trans hp) (Nat.lt_of_le_of_lt hs.length_le hl)

/-- A reader that takes a token with each item can be repeated. -/
theorem Confined.many {item? : TokenReader (Option α)} (progress : Progresses item?) (h : Confined n whole item?) :
    Confined n whole (many item?) := by
  induction n with
  | zero => exact fun pre _ hl => absurd hl (Nat.not_lt_zero _)
  | succ n ih =>
    intro pre hp hl
    rw [funext (many_eq progress)]
    refine (h hp hl).bind fun a? rest hs hg => ?_
    cases a? with
    | none => exact Confined.pure [] (hs.trans hp) (Nat.lt_succ_self _)
    | some a =>
      have hlt := progress (hg ⟨Token.endOfFile Span.zero, rfl⟩ [])
      simp only [List.length_append] at hlt
      have hm : Confined n whole (TokenReader.many item?) := ih fun q hq hql => h hq (Nat.lt_succ_of_lt hql)
      exact (hm.bind fun as _ => .pure (a :: as)) (hs.trans hp) (by omega)

/-! ## What is given -/

/-- An expected token is one of the list. -/
theorem Given.exists_token {kind : TokenKind} {hint : Option String} {t : Token}
    (h : Given whole (expect kind hint) t) : ∃ u : TokenOf kind, u.token = t ∧ u.token ∈ whole := by
  obtain ⟨pre, rest, hp, hg⟩ := h
  obtain ⟨c, rfl, hc⟩ := exists_of_expect (hg ⟨Token.endOfFile Span.zero, rfl⟩ [])
  rw [← List.append_assoc, List.append_left_inj] at hc
  exact ⟨c.toTokenOf, rfl, hp.subset (by simp [hc, Commented.tokens])⟩

end TokenReader

open TokenReader

variable {whole : List Token} {n : Nat}

/-! ## Types -/

namespace FieldType

theorem confined_readSuffix? : Confined n whole readSuffix? := by
  refine .bind (.eat? (by decide)) fun o _ => ?_
  cases o with
  | none => exact .pure none
  | some t => exact .bind (.expect (by decide)) fun closing _ => .pure (some closing.span)

/-- A type that is given was derived somewhere in the list. -/
theorem exists_of_given {read : TokenReader FieldType} (derives : Derives read) {t : FieldType}
    (h : Given whole read t) : ∃ d : Derivation, d.type = t ∧ d.tokens <:+: whole := by
  obtain ⟨pre, rest, hp, hg⟩ := h
  obtain ⟨d, rfl, hd⟩ := derives (hg ⟨Token.endOfFile Span.zero, rfl⟩ [])
  rw [← List.append_assoc, List.append_left_inj] at hd
  exact ⟨d, rfl, (List.prefix_append d.tokens rest).isInfix.trans (hd ▸ hp.isInfix)⟩

theorem confined_readMap (word : Token) (h : Confined n whole read) : Confined n whole (readMap read word) := by
  refine .bind (.expect (by decide)) fun _ _ => .bind h fun key hk => ?_
  split
  · exact .bind (.expect (by decide)) fun _ _ => .bind h fun _ _ => .bind (.expect (by decide)) fun _ _ => .pure _
  · obtain ⟨d, rfl, hd⟩ := exists_of_given derives_read hk
    exact .fail (.invalidMapKey d hd)

theorem confined_readArray (word : Token) (h : Confined n whole read) : Confined n whole (readArray read word) :=
  .bind (.expect (by decide)) fun _ _ => .bind h fun _ _ => .bind (.expect (by decide)) fun _ _ => .pure _

/-- The types inside a type start behind its first token. -/
theorem confined_readBase (h : Confined n whole read) : Confined (n + 1) whole (readBase read) := by
  intro pre hp hl
  refine (Confined.eat? (by decide) hp hl).bind fun m ts hs hm => ?_
  cases m with
  | some word =>
    obtain ⟨_, rfl, ht⟩ := exists_of_eat?_some (hm ⟨Token.endOfFile Span.zero, rfl⟩ [])
    have hlen := congrArg List.length ht
    simp only [List.length_append, List.length_cons] at hlen
    exact confined_readMap _ h (hs.trans hp) (by omega)
  | none =>
    have hl := Nat.lt_of_le_of_lt hs.length_le hl
    refine (Confined.eat? (by decide) (hs.trans hp) hl).bind fun a us hs' ha => ?_
    cases a with
    | some word =>
      obtain ⟨_, rfl, ht⟩ := exists_of_eat?_some (ha ⟨Token.endOfFile Span.zero, rfl⟩ [])
      have hlen := congrArg List.length ht
      simp only [List.length_append, List.length_cons] at hlen
      exact confined_readArray _ h ((hs'.trans hs).trans hp) (by omega)
    | none =>
      have hl := Nat.lt_of_le_of_lt hs'.length_le hl
      exact (Confined.bind (.expect (by decide)) fun name _ => .pure (ofName name)) ((hs'.trans hs).trans hp) hl

/-- Reading a type is confined, by induction on the number of tokens in front of the end. -/
theorem confined_read : ∀ n : Nat, Confined n whole read
  | 0, _, _, hl => absurd hl (Nat.not_lt_zero _)
  | n + 1, pre, hp, hl => by
    rw [read_eq]
    exact (Confined.bind .skipComments fun _ _ =>
      .bind (confined_readBase (confined_read n)) fun base _ =>
        .bind (.many progresses_readSuffix? confined_readSuffix?) fun closings _ =>
          .pure (base.withSuffixes closings)) hp hl

end FieldType

/-! ## Attributes -/

namespace Attribute

theorem endOfFile_not_mem_argumentKinds (keyword : String) : TokenKind.endOfFile ∉ argumentKinds keyword := by
  simp [mem_argumentKinds_iff]

theorem confined_readArgument (keyword : String) : Confined n whole (readArgument keyword) := by
  refine .bind (.eat? (by decide)) fun o _ => ?_
  cases o with
  | none => exact .pure _
  | some t =>
    exact .bind (.take (endOfFile_not_mem_argumentKinds keyword)) fun _ _ =>
      .bind (.expect (by decide)) fun _ _ => .pure _

theorem confined_read? : Confined n whole read? := by
  refine .bind (.eat? (by decide)) fun o _ => ?_
  cases o with
  | none => exact .pure none
  | some t =>
    refine .bind (.expect (by decide)) fun name hname => .bind (confined_readArgument _) fun value _ =>
      .bind (.expect (by decide)) fun _ _ => ?_
    obtain ⟨u, rfl, hu⟩ := hname.exists_token
    cases ofKeyword? u.token.lexeme value.1 value.2 with
    | none => exact .fail (.unknownAttribute u hu)
    | some a => exact .pure (some a)

end Attribute

/-! ## Fields -/

namespace Field

theorem confined_readInteger (hint : String) : Confined n whole (readInteger hint) := by
  refine .bind (.expect (by decide)) fun number hnumber => ?_
  obtain ⟨u, rfl, hu⟩ := hnumber.exists_token
  cases Text.signed32? u.token.lexeme.toList with
  | none => exact .fail (.invalidNumber u hu)
  | some m => exact .pure m

theorem confined_readIndex (kind : DefinitionKind) : Confined n whole (readIndex kind) := by
  cases kind with
  | enum | struct => exact .pure 0
  | message =>
    exact .bind (confined_readInteger _) fun index _ =>
      .bind (.expect (by decide)) fun _ _ => .bind (.expect (by decide)) fun _ _ => .pure index

theorem confined_readType (owner : Token) (kind : DefinitionKind) : Confined n whole (readType owner kind) := by
  cases kind with
  | enum => exact .pure _
  | struct | message => exact FieldType.confined_read n

theorem isReserved_endOfFile {t : Token} (h : t.kind = .endOfFile) : isReserved t = false := by
  simp [isReserved, h, TokenKind.isKeyword, keywords]

/-- The end of the file is no reserved word, but no name either. -/
theorem confined_readName : Confined n whole readName := by
  have hexpect : Confined n whole (expect .identifier none) := .expect (by decide)
  refine .bind .skipComments fun _ _ => .current (fun t ht => ?_) (fun e => ?_) hexpect
  · split
    · rename_i hr
      exact .fail (.reservedIdentifier ht hr)
    · exact hexpect
  · simp only [isReserved_endOfFile e.kind_eq, Bool.false_eq_true, if_false]

theorem confined_readConstant (index : Int) (kind : DefinitionKind) : Confined n whole (readConstant index kind) := by
  cases kind with
  | enum => exact .bind (.expect (by decide)) fun _ _ => confined_readInteger _
  | struct | message => exact .pure index

theorem confined_read (kind : DefinitionKind) (owner : Token) (documentation : String) :
    Confined n whole (read kind owner documentation) :=
  .bind Attribute.confined_read? fun _ _ => .bind (confined_readIndex kind) fun index _ =>
    .bind (confined_readType owner kind) fun _ _ => .bind confined_readName fun _ _ =>
      .bind (confined_readConstant index kind) fun _ _ => .bind (.expect (by decide)) fun _ _ => .pure _

theorem confined_read? (kind : DefinitionKind) (owner : Token) : Confined n whole (read? kind owner) := by
  refine .bind .lastComment fun documentation _ => ?_
  have hf : Confined n whole (do return some (← read kind owner documentation)) :=
    .bind (confined_read kind owner documentation) fun f _ => .pure (some f)
  refine .current (fun t _ => ?_) (fun e => ?_) hf
  · split
    · exact .pure none
    · exact hf
  · simp [e.kind_eq]

end Field

/-! ## Definitions -/

theorem DefinitionKind.confined_read : Confined n whole read := by
  intro pre hp _
  cases pre with
  | nil =>
    refine .ended [.enum, .struct, .message] none fun e us => ?_
    simp [read, bind_apply, current, ofKeyword?, e.kind_eq, fail]
  | cons t ts =>
    cases hk : ofKeyword? t.kind with
    | some kind =>
      refine .done kind ts (List.suffix_cons t ts) fun e us => ?_
      simp [read, bind_apply, current, hk, advance, pure_apply]
    | none =>
      refine .failed _ (t :: ts) (List.suffix_refl _) (.unexpectedToken (hp.subset List.mem_cons_self)
        [.enum, .struct, .message] none) fun e us => ?_
      simp [read, bind_apply, current, hk, fail]

namespace Definition

/-- The end of the file is where there is no further definition. -/
theorem confined_read? : Confined n whole read? := by
  refine .bind .lastComment fun documentation _ => .current (fun t _ => ?_) (fun e => ?_) (.pure none)
  · split
    · exact .pure none
    · exact .bind (.many Attribute.progresses_read? Attribute.confined_read?) fun _ _ =>
        .bind (.eat? (by decide)) fun _ _ => .bind DefinitionKind.confined_read fun kind _ =>
          .bind (.expect (by decide)) fun name _ => .bind (.expect (by decide)) fun _ _ =>
            .bind (.many (Field.progresses_read? kind name) (Field.confined_read? kind name)) fun _ _ =>
              .bind (.expect (by decide)) fun _ _ => .pure _
  · simp [e.kind_eq]

/-- A definition takes tokens, and its name is one of them. -/
theorem exists_of_gives {pre rest : List Token} {name : Token} {d : Definition} (hp : pre <:+ whole)
    (h : Gives read? pre (some (name, d)) rest) :
    rest.length < pre.length ∧
      ∃ t : TokenOf .identifier, t.token ∈ whole ∧ t.token = name ∧ d.name = t.token.lexeme := by
  obtain ⟨e, rfl, rfl, he⟩ := exists_of_read? (h ⟨Token.endOfFile Span.zero, rfl⟩ [])
  rw [← List.append_assoc, List.append_left_inj] at he
  subst he
  refine ⟨?_, e.name.toTokenOf, hp.subset ?_, rfl, rfl⟩
  · have := e.length_tokens
    rw [List.length_append]
    omega
  · simp [Derivation.tokens, Derivation.core, Commented.tokens]

end Definition

/-! ## Schemas -/

namespace Progress

/-- What comes of reading definitions from the last tokens of a list on, whatever ends the file and whatever comes after
it. -/
inductive Settled (whole : List Token) (before : List Definition) (pre : List Token) : Prop where
  | stopped (after : List Definition) (rest : List Token) (problem : Option Diagnostic) (suffix : rest <:+ pre)
      (concerns : ∀ p ∈ problem, p.Concerns whole)
      (reads : ∀ (n : Nat) (e : TokenOf .endOfFile) (us : List Token), pre.length < n →
        upTo n before (pre ++ e.token :: us) = ⟨after, rest ++ e.token :: us, problem⟩)
  | ended (after : List Definition) (expected : List TokenKind) (hint : Option String)
      (reads : ∀ (n : Nat) (e : TokenOf .endOfFile) (us : List Token), pre.length < n →
        upTo n before (pre ++ e.token :: us) = ⟨after, e.token :: us, some (.unexpectedToken expected e.token hint)⟩)

/-- One more definition. -/
theorem Settled.cons {before : List Definition} {pre rest : List Token} {name : Token} {d : Definition}
    (hs : rest <:+ pre) (hl : rest.length < pre.length) (h : Gives Definition.read? pre (some (name, d)) rest)
    (hnew : (before.any fun e => decide (e.name = d.name)) = false) (hrest : Settled whole (before ++ [d]) rest) :
    Settled whole before pre := by
  have hstep : ∀ (n : Nat) (e : TokenOf .endOfFile) (us : List Token),
      upTo (n + 1) before (pre ++ e.token :: us) = upTo n (before ++ [d]) (rest ++ e.token :: us) := fun n e us => by
    simp only [upTo_succ, h e us, hnew, Bool.false_eq_true, if_false]
  cases hrest with
  | stopped after rest' problem hs' hc hr =>
    refine .stopped after rest' problem (hs'.trans hs) hc fun n e us hn => ?_
    obtain ⟨k, rfl⟩ := Nat.exists_eq_add_of_lt hn
    rw [hstep, hr _ e us (by omega)]
  | ended after expected hint hr =>
    refine .ended after expected hint fun n e us hn => ?_
    obtain ⟨k, rfl⟩ := Nat.exists_eq_add_of_lt hn
    rw [hstep, hr _ e us (by omega)]

/-- Reading definitions settles, by induction on the number of tokens in front of the end. -/
theorem settled : ∀ (bound : Nat) (before : List Definition) {pre : List Token}, pre <:+ whole → pre.length < bound →
    Settled whole before pre
  | 0, _, _, _, hl => absurd hl (Nat.not_lt_zero _)
  | bound + 1, before, pre, hp, hl => by
    cases Definition.confined_read? hp hl with
    | failed problem rest hs hc h =>
      refine .stopped before rest (some problem) hs (by simpa using hc) fun n e us hn => ?_
      obtain ⟨k, rfl⟩ := Nat.exists_eq_add_of_lt hn
      simp only [upTo_succ, h e us]
    | ended expected hint h =>
      refine .ended before expected hint fun n e us hn => ?_
      obtain ⟨k, rfl⟩ := Nat.exists_eq_add_of_lt hn
      simp only [upTo_succ, h e us]
    | done d? rest hs h =>
      cases d? with
      | none =>
        refine .stopped before rest none hs (by simp) fun n e us hn => ?_
        obtain ⟨k, rfl⟩ := Nat.exists_eq_add_of_lt hn
        simp only [upTo_succ, h e us]
      | some nd =>
        obtain ⟨name, d⟩ := nd
        obtain ⟨hlen, t, ht, rfl, hd⟩ := Definition.exists_of_gives hp h
        cases hnew : before.any fun e => decide (e.name = d.name) with
        | false => exact .cons hs hlen h hnew (settled bound (before ++ [d]) (hs.trans hp) (by omega))
        | true =>
          have hc : Diagnostic.Concerns whole (.multipleDefinitions d.name t.token.span) :=
            hd ▸ .multipleDefinitions t ht
          refine .stopped before rest (some (.multipleDefinitions d.name t.token.span)) hs (by simpa using hc)
            fun n e us hn => ?_
          obtain ⟨k, rfl⟩ := Nat.exists_eq_add_of_lt hn
          simp only [upTo_succ, h e us, hnew, if_true]

end Progress

/-- The tokens that name a definition are identifiers. -/
theorem FieldType.Derivation.kind_of_mem_typeNames {d : FieldType.Derivation} {t : Token} (h : t ∈ d.typeNames) :
    t.kind = .identifier := by
  induction d with
  | name word =>
    simp only [typeNames] at h
    split at h
    · cases h
    · rw [List.mem_singleton.1 h, word.kind_eq]
  | map word opening key comma value closing ih => exact ih h
  | array word opening element closing ih => exact ih h
  | suffix element brackets ih => exact ih h

theorem Field.Body.kind_of_mem_typeNames {kind : DefinitionKind} {b : Field.Body kind} {t : Token}
    (h : t ∈ b.typeNames) : t.kind = .identifier := by
  cases b with
  | enum => cases h
  | struct type => exact type.kind_of_mem_typeNames h
  | message _ _ _ type => exact type.kind_of_mem_typeNames h

theorem Definition.Derivation.kind_of_mem_typeNames {d : Definition.Derivation} {t : Token} (h : t ∈ d.typeNames) :
    t.kind = .identifier := by
  obtain ⟨f, _, hf⟩ := List.mem_flatMap.1 h
  exact f.body.kind_of_mem_typeNames hf

namespace Schema

/-- An unresolved name is one of the tokens of the definitions. -/
theorem concerns_of_resolve {ds : List Definition.Derivation} {problem : Diagnostic}
    (h : Definition.resolve (ds.map Definition.Derivation.definition) = .error problem)
    (hw : ds.flatMap Definition.Derivation.tokens ⊆ whole) : problem.Concerns whole := by
  rw [Definition.resolve, Reference.resolve] at h
  split at h
  · rename_i r hr
    obtain rfl := Except.error.inj h
    obtain ⟨d', hd', hr⟩ := List.mem_flatMap.1 (List.mem_of_find?_eq_some hr)
    obtain ⟨d, hd, rfl⟩ := List.mem_map.1 hd'
    rw [Definition.Derivation.references_definition] at hr
    obtain ⟨t, ht, rfl⟩ := List.mem_map.1 hr
    exact .unrecognizedType ⟨t, d.kind_of_mem_typeNames ht⟩
      (hw (List.mem_flatMap.2 ⟨d, hd, d.typeNames_sublist.subset ht⟩)) _
  · cases h

/-- The outcome of reading a schema, whatever ends the file and whatever comes after it. The cursor stays in front of
the end. -/
inductive Settled (pre : List Token) (ns : String) : Prop where
  | answer (outcome : Except Diagnostic Schema) (concerns : ∀ problem, outcome = .error problem → problem.Concerns pre)
      (rest : List Token) (suffix : rest <:+ pre)
      (reads : ∀ (e : TokenOf .endOfFile) (us : List Token),
        (Progress.ofTokens (pre ++ e.token :: us)).finish ns = outcome ∧
          (Progress.ofTokens (pre ++ e.token :: us)).rest = rest ++ e.token :: us)
  | ended (expected : List TokenKind) (hint : Option String)
      (reads : ∀ (e : TokenOf .endOfFile) (us : List Token),
        (Progress.ofTokens (pre ++ e.token :: us)).finish ns = .error (.unexpectedToken expected e.token hint) ∧
          (Progress.ofTokens (pre ++ e.token :: us)).rest = e.token :: us)

theorem settled {pre : List Token} (hpre : Unended pre) (ns : String) : Settled pre ns := by
  have hlen : ∀ (e : TokenOf .endOfFile) (us : List Token), pre.length < (pre ++ e.token :: us).length + 1 := by
    intro e us
    rw [List.length_append]
    omega
  cases Progress.settled (pre.length + 1) [] (List.suffix_refl pre) (Nat.lt_succ_self _) with
  | ended after expected hint h =>
    refine .ended expected hint fun e us => ?_
    rw [Progress.ofTokens, h _ e us (hlen e us)]
    exact ⟨rfl, rfl⟩
  | stopped after rest problem hs hc h =>
    have hr : ∀ (e : TokenOf .endOfFile) (us : List Token),
        (Progress.ofTokens (pre ++ e.token :: us)).finish ns = Progress.finish ⟨after, [], problem⟩ ns ∧
          (Progress.ofTokens (pre ++ e.token :: us)).rest = rest ++ e.token :: us := fun e us => by
      rw [Progress.ofTokens, h _ e us (hlen e us)]
      exact ⟨rfl, rfl⟩
    refine .answer (Progress.finish ⟨after, [], problem⟩ ns) (fun p hp => ?_) rest hs hr
    cases problem with
    | some problem =>
      obtain rfl := Except.error.inj hp
      exact hc problem rfl
    | none =>
      let e : TokenOf .endOfFile := ⟨Token.endOfFile Span.zero, rfl⟩
      obtain ⟨ds, cs, e', us, rfl, _, ht⟩ := Progress.exists_of_upTo (h _ e [] (hlen e [])) (by simp)
      have hb := congrArg Token.beforeEnd ht
      rw [Token.beforeEnd_append hpre e.kind_eq,
        Token.beforeEnd_append (fun _ => Definition.kind_ne_of_mem_append) e'.kind_eq] at hb
      have hres : Definition.resolve (ds.map Definition.Derivation.definition) = .error p := by
        rw [Progress.finish, List.nil_append] at hp
        exact map_eq_error_iff.1 hp
      exact concerns_of_resolve hres (hb ▸ List.subset_append_left _ _)

end Schema

/-! ## The first end of file -/

namespace Token

/-- Behind an end of file, a terminated list goes on with whatever comes after it. -/
theorem exists_terminated_append (ts : List Token) (e : Token) (r : List Token) :
    ∃ us, terminated (ts ++ e :: r) = ts ++ e :: us := by
  rw [terminated]
  split
  · rename_i h
    simp at h
  · split
    · exact ⟨r, rfl⟩
    · exact ⟨_, by rw [List.append_assoc, List.cons_append]⟩

/-- An end of file is added where there is none. -/
theorem exists_terminated_unended {ts : List Token} (h : Unended ts) :
    ∃ span, terminated ts = ts ++ [endOfFile span] := by
  rw [terminated]
  split
  · rename_i hl
    rw [List.getLast?_eq_none_iff] at hl
    exact ⟨Span.zero, by simp [hl]⟩
  · rename_i last hl
    rw [if_neg (h last (List.mem_of_getLast? hl))]
    exact ⟨_, rfl⟩

/-- The first end of file of a list that contains one, whatever comes after that one. -/
theorem exists_first_end (e : TokenOf .endOfFile) : ∀ ts : List Token, ∃ (pre : List Token) (f : TokenOf .endOfFile),
    Unended pre ∧ ∀ us, ∃ vs, ts ++ e.token :: us = pre ++ f.token :: vs
  | [] => ⟨[], e, by simp [Unended], fun us => ⟨us, rfl⟩⟩
  | t :: ts => by
    by_cases ht : t.kind = .endOfFile
    · exact ⟨[], ⟨t, ht⟩, by simp [Unended], fun us => ⟨ts ++ e.token :: us, rfl⟩⟩
    · obtain ⟨pre, f, hpre, hf⟩ := exists_first_end e ts
      refine ⟨t :: pre, f, List.forall_mem_cons.2 ⟨ht, hpre⟩, fun us => ?_⟩
      obtain ⟨vs, hv⟩ := hf us
      exact ⟨vs, congrArg (List.cons t) hv⟩

end Token

namespace Schema

variable {ts : List Token}

/-- The tokens never run out. -/
theorem ofTokens_ne_missingEndOfFile (ts : List Token) (ns : String) : ofTokens ts ns ≠ .error .missingEndOfFile := by
  obtain ⟨e, us, ht⟩ := Token.exists_terminated ts
  rw [ofTokens, ht]
  cases settled (fun _ => Token.kind_ne_of_mem_beforeEnd) ns with
  | answer outcome hc _ _ h =>
    rw [(h e us).1]
    exact fun hm => (hc _ hm).ne_missingEndOfFile rfl
  | ended expected hint h =>
    rw [(h e us).1]
    simp

/-- A problem in front of an end of file is about tokens there, or about that end of file. -/
theorem concerns_of_ofTokens {pre : List Token} (hpre : Unended pre) (e : TokenOf .endOfFile) {us : List Token}
    {ns : String} {problem : Diagnostic} (h : ofTokens (pre ++ e.token :: us) ns = .error problem) :
    problem.Concerns pre ∨ ∃ expected hint, problem = .unexpectedToken expected e.token hint := by
  obtain ⟨vs, hv⟩ := Token.exists_terminated_append pre e.token us
  rw [ofTokens, hv] at h
  cases settled hpre ns with
  | answer outcome hc _ _ hr =>
    rw [(hr e vs).1] at h
    exact .inl (hc problem h)
  | ended expected hint hr =>
    rw [(hr e vs).1] at h
    exact .inr ⟨expected, hint, (Except.error.inj h).symm⟩

/-- No end of file is taken. -/
theorem exists_taken (ts : List Token) :
    ∃ taken, Token.terminated ts = taken ++ (Progress.ofTokens (Token.terminated ts)).rest ∧ Unended taken := by
  obtain ⟨e, us, ht⟩ := Token.exists_terminated ts
  have hpre : Unended (Token.beforeEnd ts) := fun _ => Token.kind_ne_of_mem_beforeEnd
  rw [ht]
  cases settled hpre "" with
  | answer _ _ rest hs h =>
    obtain ⟨taken, hs⟩ := hs
    refine ⟨taken, ?_, fun t ht => hpre t (hs ▸ List.mem_append_left rest ht)⟩
    rw [(h e us).2, ← List.append_assoc, hs]
  | ended expected hint h => exact ⟨Token.beforeEnd ts, by rw [(h e us).2], hpre⟩

/-- What follows an end of file has no effect. -/
theorem ofTokens_append (ts : List Token) (e : TokenOf .endOfFile) (r : List Token) (ns : String) :
    ofTokens (ts ++ e.token :: r) ns = ofTokens (ts ++ [e.token]) ns := by
  obtain ⟨pre, f, hpre, hf⟩ := Token.exists_first_end e ts
  have heq : ∀ r, ∃ vs, Token.terminated (ts ++ e.token :: r) = pre ++ f.token :: vs := fun r => by
    obtain ⟨us, hu⟩ := Token.exists_terminated_append ts e.token r
    obtain ⟨vs, hv⟩ := hf us
    exact ⟨vs, hu.trans hv⟩
  obtain ⟨us, hu⟩ := heq r
  obtain ⟨vs, hv⟩ := heq []
  rw [ofTokens, ofTokens, hu, hv]
  cases settled hpre ns with
  | answer _ _ _ _ h => rw [(h f us).1, (h f vs).1]
  | ended _ _ h => rw [(h f us).1, (h f vs).1]

/-- An end of file that is added differs from a given one in nothing but what a problem says about it. -/
theorem ofTokens_of_unended (hts : Unended ts) (e : TokenOf .endOfFile) (ns : String) :
    ofTokens ts ns = ofTokens (ts ++ [e.token]) ns ∨ ∃ expected hint span,
      ofTokens (ts ++ [e.token]) ns = .error (.unexpectedToken expected e.token hint) ∧
        ofTokens ts ns = .error (.unexpectedToken expected (Token.endOfFile span) hint) := by
  obtain ⟨span, hspan⟩ := Token.exists_terminated_unended hts
  obtain ⟨us, hu⟩ := Token.exists_terminated_append ts e.token []
  let added : TokenOf .endOfFile := ⟨Token.endOfFile span, rfl⟩
  rw [ofTokens, ofTokens, hspan, hu]
  cases settled hts ns with
  | answer _ _ _ _ h => exact .inl (by rw [(h added []).1, (h e us).1])
  | ended expected hint h => exact .inr ⟨expected, hint, span, (h e us).1, (h added []).1⟩

/-- The tokens never run out, and the cursor stays in front of the first end of file. What follows it has no effect, and
where there is none it makes no difference whether one is given, apart from its place in a problem that is about it. -/
theorem ofTokens_confined (ts : List Token) (ns : String) :
    ofTokens ts ns ≠ .error .missingEndOfFile ∧
      (∃ taken, Token.terminated ts = taken ++ (Progress.ofTokens (Token.terminated ts)).rest ∧ Unended taken) ∧
        (∀ (e : TokenOf .endOfFile) (r : List Token),
          ofTokens (ts ++ e.token :: r) ns = ofTokens (ts ++ [e.token]) ns) ∧
          (Unended ts → ∀ e : TokenOf .endOfFile, ofTokens ts ns = ofTokens (ts ++ [e.token]) ns ∨
            ∃ expected hint span,
              ofTokens (ts ++ [e.token]) ns = .error (.unexpectedToken expected e.token hint) ∧
                ofTokens ts ns = .error (.unexpectedToken expected (Token.endOfFile span) hint)) :=
  ⟨ofTokens_ne_missingEndOfFile ts ns, exists_taken ts, fun e r => ofTokens_append ts e r ns,
    fun hts e => ofTokens_of_unended hts e ns⟩

/-- A definition without a body is refused at the end of the file, be it given at a far place or added. -/
theorem ofTokens_confined_unfinished :
    let ts : List Token := [⟨.enum, "enum", Span.zero⟩, ⟨.identifier, "A", Span.zero⟩]
    let e := Token.endOfFile (Span.point 3 Position.start)
    Unended ts ∧ ∃ expected hint span, ofTokens (ts ++ [e]) "N" = .error (.unexpectedToken expected e hint) ∧
      ofTokens ts "N" = .error (.unexpectedToken expected (Token.endOfFile span) hint) := by
  intro ts e
  have hts : Unended ts := by simp [ts, Unended]
  refine ⟨hts, ?_⟩
  rcases (ofTokens_confined ts "N").2.2.2 hts ⟨e, rfl⟩ with heq | hex
  · exact absurd heq (by decide +kernel)
  · exact hex

end Schema

end SchemaLang
