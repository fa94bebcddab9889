import SchemaLang.Proofs.Confinement

/-!
# Reading is prompt

No reader looks further than at the token under the cursor.

* `TokenReader.Prompt` says that what a reader gives depends on the tokens that it takes and on the next one only. All
  that comes after that one may be exchanged. Going on with another reader keeps it (`Prompt.bind`), and so does a bound
  that has no effect (`Prompt.of_bounded`).
* Every construct of the grammar is prompt (`Definition.prompt_read?`), and so is the reading of all definitions
  (`Progress.prompt_ofTokens`).
* Only the check of names after reading reports a name that is not defined (`Diagnostic.isUnrecognized`).
* Main result: `Schema.ofTokens_prompt`.
-/

namespace SchemaLang

/-- Whether a problem is a name that is not defined. -/
def Diagnostic.isUnrecognized : Diagnostic → Bool
  | unrecognizedType _ _ _ => true
  | _ => false

/-! ## Prompt readers -/

namespace Reading

variable {α : Type}

/-- The tokens from the cursor on. -/
def rest : Reading α → List Token
  | done _ rest => rest
  | failed _ rest => rest

/-- The same reading with other tokens from the cursor on. -/
def goingOn : Reading α → List Token → Reading α
  | done a _, ts => done a ts
  | failed problem _, ts => failed problem ts

/-- A reading with a problem that is no name that is not defined, or without a problem. -/
def Recognized : Reading α → Prop
  | done _ _ => True
  | failed problem _ => problem.isUnrecognized = false

end Reading

namespace TokenReader

variable {α β : Type} {read : TokenReader α} {ts : List Token}

/-- A reader that gives the same in front of all tokens of which the first is the same. -/
def Prompt (read : TokenReader α) : Prop :=
  ∀ ts, ∃ taken, ts = taken ++ (read ts).rest ∧
    (∀ us, us.head? = (read ts).rest.head? → read (taken ++ us) = (read ts).goingOn us) ∧ (read ts).Recognized

theorem Prompt.pure (a : α) : Prompt (Pure.pure a : TokenReader α) := fun _ => ⟨[], rfl, fun _ _ => rfl, trivial⟩

theorem Prompt.fail {problem : Diagnostic} (h : problem.isUnrecognized = false) :
    Prompt (fail problem : TokenReader α) :=
  fun _ => ⟨[], rfl, fun _ _ => rfl, h⟩

/-- A second reader starts behind what the first one takes, at the token that the first one has looked at. -/
theorem Prompt.bind {next : α → TokenReader β} (hr : Prompt read) (hn : ∀ a, Prompt (next a)) :
    Prompt (read >>= next) := by
  intro ts
  obtain ⟨taken, hts, hread, hrecognized⟩ := hr ts
  cases h : read ts with
  | failed problem rest =>
    have hb : (read >>= next) ts = .failed problem rest := by rw [bind_apply, h]
    rw [h] at hts hread hrecognized
    rw [hb]
    refine ⟨taken, hts, fun us hu => ?_, hrecognized⟩
    rw [bind_apply, hread us hu]
    rfl
  | done a rest =>
    have hb : (read >>= next) ts = next a rest := by rw [bind_apply, h]
    rw [h] at hts hread
    rw [hb]
    obtain ⟨taken', hrest, hnext, hrecognized'⟩ := hn a rest
    refine ⟨taken ++ taken', ?_, fun us hu => ?_, hrecognized'⟩
    · rw [List.append_assoc, ← hrest]
      exact hts
    · have hhead : (taken' ++ us).head? = rest.head? := by rw [hrest, List.head?_append, List.head?_append, hu]
      rw [bind_apply, List.append_assoc, hread _ hhead]
      exact hnext us hu

/-- A bound that has no effect may depend on the number of tokens. -/
theorem Prompt.of_bounded {read : Nat → TokenReader α} (h : ∀ n, Prompt (read n))
    (congr : ∀ {n m ts}, ts.length < n → ts.length < m → read n ts = read m ts) :
    Prompt fun ts => read (ts.length + 1) ts := by
  intro ts
  obtain ⟨taken, hts, _, hrecognized⟩ := h (ts.length + 1) ts
  refine ⟨taken, hts, fun us hu => ?_, hrecognized⟩
  -- one bound for both lists
  let bound := ts.length + (taken ++ us).length + 1
  have hbound : read (ts.length + 1) ts = read bound ts := congr (by omega) (by omega)
  obtain ⟨taken', hts', hread, _⟩ := h bound ts
  simp only [hbound] at hts hu ⊢
  obtain rfl : taken' = taken := List.append_cancel_right (hts'.symm.trans hts)
  rw [← hread us hu]
  exact congr (by omega) (by omega)

/-! ## Primitive readers -/

/-- A reader without tokens fails, as there always has to be one more. -/
theorem Prompt.of_cons (hnil : read [] = .failed .missingEndOfFile []) (hcons : ∀ t ts, ∃ taken,
    t :: ts = taken ++ (read (t :: ts)).rest ∧
      (∀ us, us.head? = (read (t :: ts)).rest.head? → read (taken ++ us) = (read (t :: ts)).goingOn us) ∧
        (read (t :: ts)).Recognized) : Prompt read := by
  intro ts
  cases ts with
  | cons t ts => exact hcons t ts
  | nil =>
    rw [hnil]
    refine ⟨[], rfl, fun us hu => ?_, rfl⟩
    obtain rfl := List.head?_eq_none_iff.1 hu
    exact hnil

theorem Prompt.current : Prompt current := by
  refine .of_cons rfl fun t ts => ⟨[], rfl, fun us hu => ?_, trivial⟩
  obtain ⟨vs, rfl⟩ := List.head?_eq_some_iff.1 hu
  rfl

theorem Prompt.advance : Prompt advance := .of_cons rfl fun t _ => ⟨[t], rfl, fun _ _ => rfl, trivial⟩

theorem Prompt.eat? {kind : TokenKind} : Prompt (eat? kind) := by
  refine .of_cons rfl fun t ts => ?_
  by_cases hk : t.kind = kind
  · rw [eat?_of_kind hk]
    exact ⟨[t], rfl, fun _ _ => eat?_of_kind hk, trivial⟩
  · rw [eat?_of_kind_ne hk]
    refine ⟨[], rfl, fun us hu => ?_, trivial⟩
    obtain ⟨vs, rfl⟩ := List.head?_eq_some_iff.1 hu
    exact eat?_of_kind_ne hk

theorem Prompt.take {kinds : List TokenKind} {hint : Option String} : Prompt (take kinds hint) := by
  refine .of_cons rfl fun t ts => ?_
  rw [TokenReader.take]
  split
  · rename_i hk
    exact ⟨[t], rfl, fun _ _ => if_pos hk, trivial⟩
  · rename_i hk
    refine ⟨[], rfl, fun us hu => ?_, rfl⟩
    obtain ⟨vs, rfl⟩ := List.head?_eq_some_iff.1 hu
    exact if_neg hk

/-- A run of comments ends where the tokens behind it start with no comment. -/
theorem comments_append (ts : List Token) {us : List Token} (h : us.head? = (ts.dropWhile Token.isComment).head?) :
    (ts.takeWhile Token.isComment ++ us).takeWhile Token.isComment = ts.takeWhile Token.isComment ∧
      (ts.takeWhile Token.isComment ++ us).dropWhile Token.isComment = us := by
  have hall : ∀ t ∈ ts.takeWhile Token.isComment, t.isComment = true := fun t ht => List.mem_takeWhile_imp ht
  have hstop : ∀ t ∈ us.head?, t.isComment = false := by
    rw [h]
    exact isComment_dropWhile
  rw [List.takeWhile_append_of_pos hall, List.dropWhile_append_of_pos hall]
  cases us with
  | nil => simp
  | cons t us =>
    have ht := hstop t rfl
    simp [ht]

theorem Prompt.skipComments : Prompt skipComments := by
  intro ts
  refine ⟨ts.takeWhile Token.isComment, List.takeWhile_append_dropWhile.symm, fun us hu => ?_, trivial⟩
  rw [TokenReader.skipComments, (comments_append ts hu).2]
  rfl

theorem Prompt.lastComment : Prompt lastComment := by
  intro ts
  refine ⟨ts.takeWhile Token.isComment, List.takeWhile_append_dropWhile.symm, fun us hu => ?_, trivial⟩
  obtain ⟨htake, hdrop⟩ := comments_append ts hu
  rw [TokenReader.lastComment, htake, hdrop]
  rfl

theorem Prompt.expect {kind : TokenKind} {hint : Option String} : Prompt (expect kind hint) :=
  .bind .skipComments fun _ => .take

theorem Prompt.manyUpTo {item? : TokenReader (Option α)} (h : Prompt item?) : ∀ n : Nat, Prompt (manyUpTo item? n)
  | 0 => .fail rfl
  | n + 1 => by
    refine .bind h fun a? => ?_
    cases a? with
    | none => exact .pure []
    | some a => exact .bind (h.manyUpTo n) fun as => .pure (a :: as)

theorem Prompt.many {item? : TokenReader (Option α)} (progress : Progresses item?) (h : Prompt item?) :
    Prompt (many item?) :=
  .of_bounded h.manyUpTo (manyUpTo_congr progress)

end TokenReader

open TokenReader

/-! ## Types -/

namespace FieldType

theorem prompt_readSuffix? : Prompt readSuffix? := by
  refine .bind .eat? fun o => ?_
  cases o with
  | none => exact .pure none
  | some t => exact .bind .expect fun closing => .pure (some closing.span)

variable {inner : TokenReader FieldType}

theorem prompt_readMap (h : Prompt inner) (word : Token) : Prompt (readMap inner word) := by
  refine .bind .expect fun _ => .bind h fun key => ?_
  split
  · exact .bind .expect fun _ => .bind h fun value => .bind .expect fun closing => .pure _
  · exact .fail rfl

theorem prompt_readArray (h : Prompt inner) (word : Token) : Prompt (readArray inner word) :=
  .bind .expect fun _ => .bind h fun _ => .bind .expect fun _ => .pure _

theorem prompt_readBase (h : Prompt inner) : Prompt (readBase inner) := by
  refine .bind .eat? fun m => ?_
  cases m with
  | some word => exact prompt_readMap h word
  | none =>
    refine .bind .eat? fun a => ?_
    cases a with
    | some word => exact prompt_readArray h word
    | none => exact .bind .expect fun name => .pure (ofName name)

/-- Types of bounded depth are read promptly, by induction on the bound. -/
theorem prompt_readUpTo : ∀ depth : Nat, Prompt (readUpTo depth)
  | 0 => .fail rfl
  | depth + 1 =>
    .bind .skipComments fun _ => .bind (prompt_readBase (prompt_readUpTo depth)) fun base =>
      .bind (.many progresses_readSuffix? prompt_readSuffix?) fun closings => .pure (base.withSuffixes closings)

theorem prompt_read : Prompt read := .of_bounded prompt_readUpTo readUpTo_congr

end FieldType

/-! ## Attributes -/

namespace Attribute

theorem prompt_readArgument (keyword : String) : Prompt (readArgument keyword) := by
  refine .bind .eat? fun o => ?_
  cases o with
  | none => exact .pure _
  | some t => exact .bind .take fun literal => .bind .expect fun _ => .pure _

/-- A keyword that no attribute has is refused behind the closing bracket, whatever comes there. -/
theorem prompt_read? : Prompt read? := by
  refine .bind .eat? fun o => ?_
  cases o with
  | none => exact .pure none
  | some t =>
    refine .bind .expect fun name => .bind (prompt_readArgument _) fun value => .bind .expect fun _ => ?_
    cases ofKeyword? name.lexeme value.1 value.2 with
    | none => exact .fail rfl
    | some a => exact .pure (some a)

end Attribute

/-! ## Fields -/

namespace Field

theorem prompt_readInteger (hint : String) : Prompt (readInteger hint) := by
  refine .bind .expect fun number => ?_
  cases Text.signed32? number.lexeme.toList with
  | none => exact .fail rfl
  | some n => exact .pure n

theorem prompt_readIndex (kind : DefinitionKind) : Prompt (readIndex kind) := by
  cases kind with
  | enum | struct => exact .pure 0
  | message =>
    exact .bind (prompt_readInteger _) fun index => .bind .expect fun _ => .bind .expect fun _ => .pure index

theorem prompt_readType (owner : Token) (kind : DefinitionKind) : Prompt (readType owner kind) := by
  cases kind with
  | enum => exact .pure _
  | struct | message => exact FieldType.prompt_read

theorem prompt_readName : Prompt readName := by
  refine .bind .skipComments fun _ => .bind .current fun candidate => ?_
  split
  · exact .fail rfl
  · exact .expect

theorem prompt_readConstant (index : Int) (kind : DefinitionKind) : Prompt (readConstant index kind) := by
  cases kind with
  | enum => exact .bind .expect fun _ => prompt_readInteger _
  | struct | message => exact .pure index

theorem prompt_read (kind : DefinitionKind) (owner : Token) (documentation : String) :
    Prompt (read kind owner documentation) :=
  .bind Attribute.prompt_read? fun _ => .bind (prompt_readIndex kind) fun index =>
    .bind (prompt_readType owner kind) fun _ => .bind prompt_readName fun _ =>
      .bind (prompt_readConstant index kind) fun _ => .bind .expect fun _ => .pure _

theorem prompt_read? (kind : DefinitionKind) (owner : Token) : Prompt (read? kind owner) := by
  refine .bind .lastComment fun documentation => .bind .current fun t => ?_
  split
  · exact .pure none
  · exact .bind (prompt_read kind owner documentation) fun f => .pure (some f)

end Field

/-! ## Definitions -/

theorem DefinitionKind.prompt_read : Prompt read := by
  refine .bind .current fun word => ?_
  cases ofKeyword? word.kind with
  | none => exact .fail rfl
  | some kind => exact .bind .advance fun _ => .pure kind

theorem Definition.prompt_read? : Prompt read? := by
  refine .bind .lastComment fun documentation => .bind .current fun t => ?_
  split
  · exact .pure none
  · exact .bind (.many Attribute.progresses_read? Attribute.prompt_read?) fun attributes => .bind .eat? fun modifier =>
      .bind DefinitionKind.prompt_read fun kind => .bind .expect fun name => .bind .expect fun _ =>
        .bind (.many (Field.progresses_read? kind name) (Field.prompt_read? kind name)) fun fields =>
          .bind .expect fun closing => .pure _

/-! ## Definitions one after the other -/

namespace Progress

/-- The progress as a reading. -/
def reading (p : Progress) : Reading (List Definition) :=
  match p.problem with
  | none => .done p.definitions p.rest
  | some problem => .failed problem p.rest

theorem rest_reading (p : Progress) : p.reading.rest = p.rest := by
  rw [reading]
  split <;> rfl

theorem reading_eq_failed_iff {p : Progress} {problem : Diagnostic} {rest : List Token} :
    p.reading = .failed problem rest ↔ p.problem = some problem ∧ p.rest = rest := by
  rw [reading]
  cases p.problem <;> simp

/-- Two bounds above the number of tokens give the same definitions. -/
theorem upTo_congr : ∀ {n m : Nat} {before : List Definition} {ts : List Token}, ts.length < n → ts.length < m →
    upTo n before ts = upTo m before ts
  | n + 1, m + 1, before, ts, hn, hm => by
    rw [upTo_succ, upTo_succ]
    cases h : Definition.read? ts with
    | failed problem rest => rfl
    | done d? rest =>
      cases d? with
      | none => rfl
      | some d =>
        obtain ⟨e, _, _, rfl⟩ := Definition.exists_of_read? h
        have he := e.length_tokens
        rw [List.length_append] at hn hm
        have hrest : upTo n (before ++ [d.2]) rest = upTo m (before ++ [d.2]) rest := upTo_congr (by omega) (by omega)
        simp only [hrest]

/-- What is read behind a definition: no others, if its name is defined already. -/
def readFollowing (n : Nat) (before : List Definition) : Option (Token × Definition) → TokenReader (List Definition)
  | none, ts => .done before ts
  | some (name, d), ts =>
    if before.any fun e => e.name = d.name then .failed (.multipleDefinitions d.name name.span) ts
    else (upTo n (before ++ [d]) ts).reading

/-- Behind a definition reading stops, or it goes on with the next one. -/
theorem readFollowing_some (n : Nat) (before : List Definition) (d : Token × Definition) :
    readFollowing n before (some d) = fail (.multipleDefinitions d.2.name d.1.span) ∨
      readFollowing n before (some d) = fun ts => (upTo n (before ++ [d.2]) ts).reading := by
  by_cases h : (before.any fun e => decide (e.name = d.2.name)) = true
  · exact .inl (funext fun _ => if_pos h)
  · exact .inr (funext fun _ => if_neg h)

/-- Definitions are read one after the other. -/
theorem reading_upTo (n : Nat) (before : List Definition) :
    (fun ts => (upTo (n + 1) before ts).reading) = Definition.read? >>= readFollowing n before := by
  funext ts
  rw [bind_apply, upTo_succ]
  cases Definition.read? ts with
  | failed problem rest => rfl
  | done d? rest =>
    cases d? with
    | none => rfl
    | some d =>
      simp only [readFollowing]
      split <;> rfl

/-- Definitions are read promptly, by induction on the bound. -/
theorem prompt_upTo : ∀ (n : Nat) (before : List Definition), Prompt fun ts => (upTo n before ts).reading
  | 0, _ => Prompt.fail (rfl : Diagnostic.missingEndOfFile.isUnrecognized = false)
  | n + 1, before => by
    rw [reading_upTo]
    refine .bind Definition.prompt_read? fun d? => ?_
    cases d? with
    | none => exact .pure before
    | some d =>
      rcases readFollowing_some n before d with h | h
      · rw [h]
        exact .fail rfl
      · rw [h]
        exact prompt_upTo n (before ++ [d.2])

theorem prompt_ofTokens : Prompt fun ts => (ofTokens ts).reading :=
  .of_bounded (fun n => prompt_upTo n []) fun hn hm => by rw [upTo_congr hn hm]

end Progress

/-! ## The first problem -/

namespace Schema

variable {tokens : List Token} {ns : String} {problem : Diagnostic}

/-- A problem is one of reading definitions, or a name that is not defined if there was none. -/
theorem problem_of_ofTokens (h : ofTokens tokens ns = .error problem) :
    (Progress.ofTokens (Token.terminated tokens)).problem = some problem ∨
      (Progress.ofTokens (Token.terminated tokens)).problem = none ∧ ∃ r : Reference, problem = r.unrecognized := by
  rw [ofTokens, Progress.finish] at h
  split at h
  · rename_i p hp
    obtain rfl := Except.error.inj h
    exact .inl hp
  · rename_i hp
    rw [Definition.resolve, Reference.resolve] at h
    split at h
    · exact .inr ⟨hp, _, (Except.error.inj h).symm⟩
    · cases h

/-- The cursor stands at a token. -/
theorem rest_ne_nil (tokens : List Token) : (Progress.ofTokens (Token.terminated tokens)).rest ≠ [] := by
  obtain ⟨taken, htaken, hunended⟩ := exists_taken tokens
  obtain ⟨e, us, he⟩ := Token.exists_terminated tokens
  intro hnil
  rw [hnil, List.append_nil] at htaken
  have hmem : e.token ∈ taken := by
    rw [← htaken, he]
    simp
  exact hunended e.token hmem e.kind_eq

/-- Reading reports no name that is not defined. -/
theorem isUnrecognized_of_problem (h : (Progress.ofTokens (Token.terminated tokens)).problem = some problem) :
    problem.isUnrecognized = false := by
  obtain ⟨_, _, _, hrecognized⟩ := Progress.prompt_ofTokens (Token.terminated tokens)
  simp only [Progress.reading_eq_failed_iff.2 ⟨h, rfl⟩] at hrecognized
  exact hrecognized

/-- The tokens up to the one under the cursor decide which problem reading has. -/
theorem exists_cursor (h : (Progress.ofTokens (Token.terminated tokens)).problem = some problem) :
    ∃ taken t us, Token.terminated tokens = taken ++ t :: us ∧
      (Progress.ofTokens (Token.terminated tokens)).rest = t :: us ∧
        ∀ tokens', taken ++ [t] <+: Token.terminated tokens' →
          (Progress.ofTokens (Token.terminated tokens')).problem = some problem := by
  obtain ⟨taken, htaken, hread, _⟩ := Progress.prompt_ofTokens (Token.terminated tokens)
  obtain ⟨t, us, hrest⟩ := List.exists_cons_of_ne_nil (rest_ne_nil tokens)
  simp only [Progress.rest_reading, hrest] at htaken hread
  refine ⟨taken, t, us, htaken, hrest, fun tokens' ⟨us', htokens'⟩ => ?_⟩
  rw [List.append_assoc, List.singleton_append] at htokens'
  have hreading := hread (t :: us') rfl
  rw [htokens', Progress.reading_eq_failed_iff.2 ⟨h, rfl⟩] at hreading
  exact (Progress.reading_eq_failed_iff.1 hreading).1

/-- A problem depends on the tokens up to the one under the cursor only, whatever comes after that one, unless it is a
name that is not defined. Such a name is reported only where definitions with different names come to the first end of
file without a problem. -/
theorem ofTokens_prompt (h : ofTokens tokens ns = .error problem) :
    (problem.isUnrecognized = false → ∃ taken t us, Token.terminated tokens = taken ++ t :: us ∧
      (Progress.ofTokens (Token.terminated tokens)).rest = t :: us ∧
        ∀ tokens' ns', taken ++ [t] <+: Token.terminated tokens' → ofTokens tokens' ns' = .error problem) ∧
    (problem.isUnrecognized = true → (Progress.ofTokens (Token.terminated tokens)).problem = none ∧
      ∃ (ds : List Definition.Derivation) (cs : Comments), (Definition.Derivation.names ds).Nodup ∧
        Token.beforeEnd tokens = ds.flatMap Definition.Derivation.tokens ++ cs.tokens) := by
  rcases problem_of_ofTokens h with hp | ⟨hp, r, rfl⟩
  · have hrecognized := isUnrecognized_of_problem hp
    refine ⟨fun _ => ?_, fun hu => absurd hu (by simp [hrecognized])⟩
    obtain ⟨taken, t, us, htokens, hrest, hcongr⟩ := exists_cursor hp
    refine ⟨taken, t, us, htokens, hrest, fun tokens' ns' htokens' => ?_⟩
    rw [ofTokens, Progress.finish, hcongr tokens' htokens']
  · refine ⟨fun hu => absurd hu (by simp [Reference.unrecognized, Diagnostic.isUnrecognized]), fun _ => ⟨hp, ?_⟩⟩
    obtain ⟨ds, cs, _, hn, htokens⟩ := exists_of_problem_eq_none hp
    exact ⟨ds, cs, hn, htokens⟩

/-- A key that is no built-in type is refused at the comma, and a name that is not defined behind a whole definition. -/
theorem ofTokens_prompt_key :
    let token (kind : TokenKind) (lexeme : String) : Token := ⟨kind, lexeme, Span.zero⟩
    let opening := [token .struct "struct", token .identifier "A", token .openBrace "\x7b"]
    let key := [token .map "map", token .openBracket "[", token .identifier "A", token .comma ","]
    let field := [token .identifier "B", token .identifier "b", token .semicolon ";", token .closeBrace "\x7d"]
    (ofTokens (opening ++ key) "N" = .error (.invalidMapKey (.defined "A" Span.zero)) ∧
      ∃ taken t us, Token.terminated (opening ++ key) = taken ++ t :: us ∧
        (Progress.ofTokens (Token.terminated (opening ++ key))).rest = t :: us ∧
          ∀ tokens' ns', taken ++ [t] <+: Token.terminated tokens' →
            ofTokens tokens' ns' = .error (.invalidMapKey (.defined "A" Span.zero))) ∧
    (ofTokens (opening ++ field) "N" = .error (.unrecognizedType "B" "A" Span.zero) ∧
      (Progress.ofTokens (Token.terminated (opening ++ field))).problem = none ∧
        ∃ (ds : List Definition.Derivation) (cs : Comments), (Definition.Derivation.names ds).Nodup ∧
          Token.beforeEnd (opening ++ field) = ds.flatMap Definition.Derivation.tokens ++ cs.tokens) := by
  intro token opening key field
  have hkey : ofTokens (opening ++ key) "N" = .error (.invalidMapKey (.defined "A" Span.zero)) := by decide +kernel
  have hname : ofTokens (opening ++ field) "N" = .error (.unrecognizedType "B" "A" Span.zero) := by decide +kernel
  exact ⟨⟨hkey, (ofTokens_prompt hkey).1 rfl⟩, hname, (ofTokens_prompt hname).2 rfl⟩

end Schema

end SchemaLang
