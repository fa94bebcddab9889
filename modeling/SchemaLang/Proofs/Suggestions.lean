import SchemaLang.Proofs.Promptness

/-!
# Suggested tokens

Where reading fails because a token of another kind is wanted, each of the wanted kinds is right in its place.

* `TokenReader.StopsBefore` says that a reader which stops in front of a token would stop in front of tokens of other
  kinds as well. `TokenKind.firm` are the kinds before which all constructs stop: no reader tries one of them and goes
  on without it.
* `TokenReader.Honest first` says that a reader gets past each of the tokens that it suggests (`Reading.GetsPast`). As
  long as it has taken no token it suggests kinds of `first` only.
* Going on with another reader keeps it, if the first reader stops before what the second one suggests at its first
  token (`TokenReader.Honest.bind`). So no test that was made at the same token takes a suggested token away.
* `TokenReader.Firm` is both, with the firm kinds. Most readers are put together from firm ones
  (`TokenReader.Firm.bind`).
* Every construct of the grammar is honest (`Definition.honest_read?`), and so is the reading of all definitions
  (`Progress.honest_ofTokens`).
* Main result: `Schema.ofTokens_honest`.
-/

namespace SchemaLang

/-- The kinds of tokens that are wanted wherever they are looked for, so that none of them is tried and left. -/
def TokenKind.firm : List TokenKind :=
  [.identifier, .number, .rawString, .escapedString, .openBrace, .closeBracket, .closeParenthesis, .semicolon, .equals,
   .comma, .hyphen, .greater, .enum, .struct, .message]

/-- A reading that got past a token, behind which other tokens stand. Only an identifier that is spelled like a reserved
word may be refused where an identifier is wanted, as it is no name of a field. -/
def Reading.GetsPast {α : Type} (t : Token) (us : List Token) (r : Reading α) : Prop :=
  r.rest <:+ us ∨
    t.kind = .identifier ∧ isKeyword t.lexeme = true ∧ r = .failed (.reservedIdentifier t.lexeme t.span) (t :: us)

/-- Whether a problem is a token of another kind than the wanted ones. -/
def Diagnostic.isUnexpected : Diagnostic → Bool
  | unexpectedToken _ _ _ => true
  | _ => false

namespace TokenReader

variable {α β : Type} {read : TokenReader α} {next : α → TokenReader β} {following : List TokenKind}

/-! ## Where readers stop -/

/-- A reader that gives a value in front of some tokens gives the same value in front of each token of the kinds that
belong to the value. -/
structure StopsBefore (kinds : α → List TokenKind) (read : TokenReader α) : Prop where
  prompt : Prompt read
  stops : ∀ ⦃taken rest a⦄, read (taken ++ rest) = .done a rest →
    ∀ t us, t.kind ∈ kinds a → read (taken ++ t :: us) = .done a (t :: us)

theorem StopsBefore.nil (prompt : Prompt read) : StopsBefore (fun _ => []) read :=
  ⟨prompt, fun _ _ _ _ _ _ ht => absurd ht List.not_mem_nil⟩

/-- A second reader stays in front of what both stop before. -/
theorem StopsBefore.bind (hr : StopsBefore (fun _ => following) read)
    (hn : ∀ a, StopsBefore (fun _ => following) (next a)) : StopsBefore (fun _ => following) (read >>= next) where
  prompt := hr.prompt.bind fun a => (hn a).prompt
  stops ts rest b h t us ht := by
    obtain ⟨a, mid, hread, hnext⟩ := bind_eq_done_iff.1 h
    obtain ⟨taken, hts, hprompt, _⟩ := hr.prompt (ts ++ rest)
    obtain ⟨taken', hmid, _⟩ := (hn a).prompt mid
    rw [hread] at hts hprompt
    rw [hnext] at hmid
    obtain rfl : mid = taken' ++ rest := hmid
    have hts : ts ++ rest = taken ++ (taken' ++ rest) := hts
    obtain rfl : ts = taken ++ taken' := List.append_cancel_right (hts.trans (List.append_assoc ..).symm)
    rw [List.append_assoc] at hread ⊢
    have hsame : read (taken ++ (taken' ++ t :: us)) = .done a (taken' ++ t :: us) := by
      cases taken' with
      | nil => exact hr.stops hread t us ht
      | cons u taken' => exact hprompt (u :: taken' ++ t :: us) rfl
    rw [bind_apply, hsame]
    exact (hn a).stops hnext t us ht

/-- A bound that has no effect may depend on the number of tokens. -/
theorem StopsBefore.of_bounded {kinds : α → List TokenKind} {read : Nat → TokenReader α}
    (h : ∀ n, StopsBefore kinds (read n))
    (congr : ∀ {n m ts}, ts.length < n → ts.length < m → read n ts = read m ts) :
    StopsBefore kinds fun ts => read (ts.length + 1) ts where
  prompt := .of_bounded (fun n => (h n).prompt) congr
  stops taken rest a hr t us ht := by
    -- one bound for both lists
    let bound := (taken ++ rest).length + (taken ++ t :: us).length + 1
    have hbound : read ((taken ++ rest).length + 1) (taken ++ rest) = read bound (taken ++ rest) :=
      congr (by omega) (by omega)
    have hothers : read ((taken ++ t :: us).length + 1) (taken ++ t :: us) = read bound (taken ++ t :: us) :=
      congr (by omega) (by omega)
    rw [hothers]
    exact (h bound).stops (hbound.symm.trans hr) t us ht

theorem StopsBefore.pure (a : α) : StopsBefore (fun _ => following) (Pure.pure a : TokenReader α) where
  prompt := .pure a
  stops taken rest b h t us _ := by
    obtain ⟨rfl, htaken⟩ := pure_eq_done_iff.1 h
    obtain rfl := List.append_left_eq_self.1 htaken
    rfl

theorem StopsBefore.fail {problem : Diagnostic} (h : problem.isUnrecognized = false) :
    StopsBefore (fun _ => following) (fail problem : TokenReader α) where
  prompt := .fail h
  stops _ _ _ h := absurd h fail_ne_done

theorem StopsBefore.eat? {kind : TokenKind} {kinds : Option Token → List TokenKind} (h : kind ∉ kinds none) :
    StopsBefore kinds (eat? kind) where
  prompt := .eat?
  stops taken rest o ho t us ht := by
    cases o with
    | none =>
      obtain rfl := List.append_left_eq_self.1 (eq_of_eat?_none ho).1
      refine eat?_of_kind_ne fun hk => h ?_
      rwa [← hk]
    | some m =>
      obtain ⟨m, rfl, hm⟩ := exists_of_eat?_some ho
      obtain rfl : taken = [m.token] := List.append_cancel_right hm
      exact eat?_of_kind m.kind_eq

theorem StopsBefore.take {kinds : List TokenKind} {hint : Option String} :
    StopsBefore (fun _ => following) (take kinds hint) where
  prompt := .take
  stops taken rest a ha t us _ := by
    obtain ⟨htaken, hk⟩ := take_eq_done_iff.1 ha
    obtain rfl : taken = [a] := List.append_cancel_right htaken
    exact take_eq_done_iff.2 ⟨rfl, hk⟩

theorem StopsBefore.expect {kind : TokenKind} {hint : Option String} (h : kind ≠ .blockComment) :
    StopsBefore (fun _ => following) (expect kind hint) where
  prompt := .expect
  stops taken rest a ha t us _ := by
    obtain ⟨c, rfl, hc⟩ := exists_of_expect ha
    obtain rfl : taken = c.tokens := List.append_cancel_right hc
    exact expect_tokens c h

theorem isComment_eq_false_of_mem {t : Token} (h : .blockComment ∉ following) (ht : t.kind ∈ following) :
    t.isComment = false := by
  rw [Token.isComment, decide_eq_false_iff_not]
  intro hk
  exact h (hk ▸ ht)

theorem StopsBefore.skipComments (h : .blockComment ∉ following) : StopsBefore (fun _ => following) skipComments where
  prompt := .skipComments
  stops taken rest a ha t us ht := by
    obtain ⟨cs, hcs, _⟩ := exists_of_skipComments ha
    obtain rfl : taken = cs.tokens := List.append_cancel_right hcs
    exact skipComments_tokens cs (isComment_eq_false_of_mem h ht) us

theorem StopsBefore.lastComment (h : .blockComment ∉ following) : StopsBefore (fun _ => following) lastComment where
  prompt := .lastComment
  stops taken rest a ha t us ht := by
    obtain ⟨cs, rfl, hcs, _⟩ := exists_of_lastComment ha
    obtain rfl : taken = cs.tokens := List.append_cancel_right hcs
    exact lastComment_tokens cs (isComment_eq_false_of_mem h ht) us

theorem StopsBefore.manyUpTo {item? : TokenReader (Option α)} (h : StopsBefore (fun _ => following) item?) :
    ∀ n : Nat, StopsBefore (fun _ => following) (manyUpTo item? n)
  | 0 => .fail rfl
  | n + 1 => by
    refine .bind h fun a? => ?_
    cases a? with
    | none => exact .pure []
    | some a => exact .bind (h.manyUpTo n) fun as => .pure (a :: as)

theorem StopsBefore.many {item? : TokenReader (Option α)} (progress : Progresses item?)
    (h : StopsBefore (fun _ => following) item?) : StopsBefore (fun _ => following) (many item?) :=
  .of_bounded h.manyUpTo (manyUpTo_congr progress)

/-! ## Honest readers -/

variable {first : List TokenKind}

/-- A reader that gets past each token that it suggests in place of another one. Without a token before that one, it
suggests kinds of `first`. -/
structure Honest (first : List TokenKind) (read : TokenReader α) : Prop where
  prompt : Prompt read
  getsPast : ∀ ⦃ts expected actual hint rest⦄, read ts = .failed (.unexpectedToken expected actual hint) rest →
    ∃ taken us, ts = taken ++ actual :: us ∧ rest = actual :: us ∧ actual.kind ∉ expected ∧
      (taken = [] → expected ⊆ first) ∧ ∀ t us', t.kind ∈ expected → (read (taken ++ t :: us')).GetsPast t us'

theorem Honest.mono {more : List TokenKind} (h : Honest first read) (hf : first ⊆ more) : Honest more read where
  prompt := h.prompt
  getsPast ts expected actual hint rest hr := by
    obtain ⟨taken, us, hts, hrest, ha, hfirst, hpast⟩ := h.getsPast hr
    exact ⟨taken, us, hts, hrest, ha, fun hn => List.Subset.trans (hfirst hn) hf, hpast⟩

/-- A reader that finds no token unexpected is honest. -/
theorem Honest.of_expected (prompt : Prompt read)
    (h : ∀ ⦃ts problem rest⦄, read ts = .failed problem rest → problem.isUnexpected = false) : Honest first read where
  prompt := prompt
  getsPast ts expected actual hint rest hr := absurd (h hr) (by simp [Diagnostic.isUnexpected])

theorem Honest.pure (a : α) : Honest first (Pure.pure a : TokenReader α) :=
  .of_expected (.pure a) fun _ _ _ h => by simp [pure_apply] at h

theorem Honest.fail {problem : Diagnostic} (hr : problem.isUnrecognized = false) (hu : problem.isUnexpected = false) :
    Honest first (fail problem : TokenReader α) :=
  .of_expected (.fail hr) fun _ _ _ h => by
    obtain ⟨rfl, _⟩ := Reading.failed.inj h
    exact hu

/-- A second reader stays behind a token that the first one got past. -/
theorem getsPast_bind {ts us : List Token} {t : Token} (h : (read ts).GetsPast t us) (hn : ∀ a, Prompt (next a)) :
    ((read >>= next) ts).GetsPast t us := by
  rcases h with h | ⟨hk, hw, h⟩
  · left
    cases hr : read ts with
    | failed problem rest =>
      rw [hr] at h
      rwa [bind_apply, hr]
    | done a rest =>
      rw [hr] at h
      obtain ⟨taken, htaken, _⟩ := hn a rest
      rw [bind_apply, hr]
      exact List.IsSuffix.trans ⟨taken, htaken.symm⟩ h
  · right
    rw [bind_apply, h]
    exact ⟨hk, hw, rfl⟩

/-- The second reader suggests at its first token what the first reader does not take there, and these are the first
suggestions of both if the first reader takes no token. -/
theorem Honest.bind_kinds {kinds : α → List TokenKind} (hr : Honest first read) (hs : StopsBefore kinds read)
    (hn : ∀ a, Honest (kinds a) (next a)) (hfirst : ∀ ⦃ts a⦄, read ts = .done a ts → kinds a ⊆ first) :
    Honest first (read >>= next) where
  prompt := hr.prompt.bind fun a => (hn a).prompt
  getsPast ts expected actual hint rest h := by
    rw [bind_apply] at h
    cases hread : read ts with
    | failed problem mid =>
      rw [hread] at h
      obtain ⟨rfl, rfl⟩ := Reading.failed.inj h
      obtain ⟨taken, us, hts, hrest, ha, hwanted, hpast⟩ := hr.getsPast hread
      exact ⟨taken, us, hts, hrest, ha, hwanted, fun t us' ht =>
        getsPast_bind (hpast t us' ht) fun a => (hn a).prompt⟩
    | done a mid =>
      rw [hread] at h
      obtain ⟨taken', us, rfl, hrest, ha, hwanted, hpast⟩ := (hn a).getsPast h
      obtain ⟨taken, hts, hprompt, _⟩ := hr.prompt ts
      rw [hread] at hts hprompt
      obtain rfl : ts = taken ++ (taken' ++ actual :: us) := hts
      refine ⟨taken ++ taken', us, by simp, hrest, ha, fun hnil => ?_, fun t us' ht => ?_⟩
      · obtain ⟨rfl, rfl⟩ := List.append_eq_nil_iff.1 hnil
        exact List.Subset.trans (hwanted rfl) (hfirst hread)
      -- the first reader gives the same value: it looks at a token that stays, or it stops before the suggested one
      · have hsame : read (taken ++ (taken' ++ t :: us')) = .done a (taken' ++ t :: us') := by
          cases taken' with
          | nil => exact hs.stops hread t us' (hwanted rfl ht)
          | cons u taken' => exact hprompt (u :: taken' ++ t :: us') rfl
        rw [List.append_assoc, bind_apply, hsame]
        exact hpast t us' ht

theorem Honest.bind (hr : Honest first read) (hs : StopsBefore (fun _ => first) read)
    (hn : ∀ a, Honest first (next a)) : Honest first (read >>= next) :=
  .bind_kinds hr hs hn fun _ _ _ => List.Subset.refl first

/-- A bound that has no effect may depend on the number of tokens. -/
theorem Honest.of_bounded {read : Nat → TokenReader α} (h : ∀ n, Honest first (read n))
    (congr : ∀ {n m ts}, ts.length < n → ts.length < m → read n ts = read m ts) :
    Honest first fun ts => read (ts.length + 1) ts where
  prompt := .of_bounded (fun n => (h n).prompt) congr
  getsPast ts expected actual hint rest hr := by
    obtain ⟨taken, us, hts, hrest, ha, hfirst, _⟩ := (h _).getsPast hr
    refine ⟨taken, us, hts, hrest, ha, hfirst, fun t us' ht => ?_⟩
    -- one bound for both lists
    let bound := ts.length + (taken ++ t :: us').length + 1
    have hbound : read (ts.length + 1) ts = read bound ts := congr (by omega) (by omega)
    obtain ⟨taken', us'', hts', hrest', _, _, hpast⟩ := (h bound).getsPast (hbound.symm.trans hr)
    obtain rfl : us = us'' := (List.cons.inj (hrest.symm.trans hrest')).2
    obtain rfl : taken = taken' := List.append_cancel_right (hts.symm.trans hts')
    have hothers : read ((taken ++ t :: us').length + 1) (taken ++ t :: us') = read bound (taken ++ t :: us') :=
      congr (by omega) (by omega)
    rw [hothers]
    exact hpast t us' ht

/-! ### Primitive readers -/

theorem Honest.skipComments : Honest first skipComments := .of_expected .skipComments fun _ _ _ h => by cases h

theorem Honest.lastComment : Honest first lastComment := .of_expected .lastComment fun _ _ _ h => by cases h

theorem Honest.eat? {kind : TokenKind} : Honest first (eat? kind) := by
  refine .of_expected .eat? fun ts _ _ h => ?_
  cases ts with
  | nil =>
    obtain ⟨rfl, _⟩ := Reading.failed.inj h
    rfl
  | cons t ts =>
    rw [TokenReader.eat?] at h
    split at h <;> cases h

theorem Honest.take {kinds : List TokenKind} {hint : Option String} : Honest kinds (take kinds hint) where
  prompt := .take
  getsPast ts expected actual hint' rest h := by
    cases ts with
    | nil => simp [TokenReader.take] at h
    | cons u us =>
      rw [TokenReader.take] at h
      split at h
      · cases h
      · rename_i hk
        simp only [Reading.failed.injEq, Diagnostic.unexpectedToken.injEq] at h
        obtain ⟨⟨rfl, rfl, _⟩, rfl⟩ := h
        refine ⟨[], us, rfl, rfl, by simpa using hk, fun _ => List.Subset.refl _, fun t us' ht => .inl ?_⟩
        have hdone : TokenReader.take kinds hint (t :: us') = .done t us' := take_eq_done_iff.2 ⟨rfl, ht⟩
        rw [List.nil_append, hdone]
        exact List.suffix_rfl

/-- A token is expected behind comments, which are no such token. -/
theorem Honest.expect {kind : TokenKind} {hint : Option String} (h : kind ≠ .blockComment) :
    Honest [kind] (expect kind hint) := by
  refine .bind .skipComments (.skipComments ?_) fun _ => .take
  simpa using h.symm

/-- A reader behind a token that is wanted may suggest anything. -/
theorem Honest.expect_bind {kind : TokenKind} {hint : Option String} {next : Token → TokenReader β}
    (following : List TokenKind) (h : kind ≠ .blockComment) (hn : ∀ t, Honest following (next t)) :
    Honest [kind] (TokenReader.expect kind hint >>= next) := by
  refine .bind_kinds (.expect h) (.expect h) hn fun ts a ha => ?_
  obtain ⟨c, _, hc⟩ := exists_of_expect ha
  have hl := c.length_tokens
  have hc := congrArg List.length hc
  rw [List.length_append] at hc
  omega

/-- A kind that is tried is not suggested if it is not there. -/
theorem Honest.eat?_bind {kind : TokenKind} {next : Option Token → TokenReader β} (following : List TokenKind)
    (h : kind ∉ first) (hsome : ∀ t, Honest following (next (some t))) (hnone : Honest first (next none)) :
    Honest first (TokenReader.eat? kind >>= next) := by
  let kinds (o : Option Token) : List TokenKind := o.elim first fun _ => following
  have hn (o : Option Token) : Honest (kinds o) (next o) := by
    cases o with
    | none => exact hnone
    | some t => exact hsome t
  refine .bind_kinds .eat? (.eat? h) hn fun ts o ho => ?_
  cases o with
  | none => exact List.Subset.refl first
  | some t =>
    obtain ⟨m, _, hm⟩ := exists_of_eat?_some ho
    exact absurd hm List.ne_cons_self

/-- A test of the token under the cursor, which sends some tokens to another reader. Suggested tokens may fail the test
if the other reader gets past them. -/
theorem Honest.ite {p : Token → Prop} [DecidablePred p] {other : Token → TokenReader α} (hr : Honest first read)
    (prompt : ∀ t, Prompt (other t))
    (expected : ∀ ⦃t ts problem rest⦄, other t ts = .failed problem rest → problem.isUnexpected = false)
    (hpast : ∀ t us, t.kind ∈ first → p t → (other t (t :: us)).GetsPast t us) :
    Honest first (current >>= fun t => if p t then other t else read) where
  prompt := .bind .current fun t => by
    split
    · exact prompt t
    · exact hr.prompt
  getsPast ts wanted actual hint rest hts := by
    have hcons (t : Token) (ts : List Token) : (current >>= fun t => if p t then other t else read) (t :: ts) =
        (if p t then other t else read) (t :: ts) := rfl
    cases ts with
    | nil => simp [bind_apply, current] at hts
    | cons u us =>
      rw [hcons] at hts
      split at hts
      · exact absurd (expected hts) (by simp [Diagnostic.isUnexpected])
      · rename_i hu
        obtain ⟨taken, vs, htaken, hrest, ha, hfirst, hgets⟩ := hr.getsPast hts
        refine ⟨taken, vs, htaken, hrest, ha, hfirst, fun t us' ht => ?_⟩
        cases taken with
        | nil =>
          rw [List.nil_append, hcons]
          split
          · rename_i htest
            exact hpast t us' (hfirst rfl ht) htest
          · exact hgets t us' ht
        | cons v taken =>
          obtain ⟨rfl, _⟩ := List.cons.inj htaken
          rw [List.cons_append, hcons, if_neg hu]
          exact hgets t us' ht

/-- Where a kind ends a list of items, it is not suggested otherwise. -/
theorem Honest.unless {kind : TokenKind} {a : α} (h : kind ∉ first) (hr : Honest first read) :
    Honest first (current >>= fun t => if t.kind = kind then Pure.pure a else read) :=
  hr.ite (fun _ => .pure a) (fun _ _ _ _ hf => by cases hf) fun _ _ ht hk => absurd (hk ▸ ht) h

section Many

variable {item? : TokenReader (Option α)} {δ : Type} {tokens : δ → List Token} {value : δ → α}

/-- Behind an item the next item may be suggested. -/
def afterItem (first : List TokenKind) (a? : Option α) : List TokenKind := a?.elim [] fun _ => first

/-- Items are read whatever follows. -/
theorem StopsBefore.afterItem (prompt : Prompt item?)
    (sound : ∀ {ts a rest}, item? ts = .done (some a) rest → ∃ d, value d = a ∧ ts = tokens d ++ rest)
    (complete : ∀ d rest, item? (tokens d ++ rest) = .done (some (value d)) rest) :
    StopsBefore (afterItem first) item? where
  prompt := prompt
  stops taken rest a? hr t us ht := by
    cases a? with
    | none => exact absurd ht List.not_mem_nil
    | some a =>
      obtain ⟨d, rfl, hd⟩ := sound hr
      obtain rfl : taken = tokens d := List.append_cancel_right hd
      exact complete d (t :: us)

theorem Honest.manyUpTo (h : Honest first item?) (hs : StopsBefore (TokenReader.afterItem first) item?) :
    ∀ n : Nat, Honest first (manyUpTo item? n)
  | 0 => .fail rfl rfl
  | n + 1 => by
    refine .bind_kinds h hs (fun a? => ?_) fun ts a? _ => ?_
    · cases a? with
      | none => exact .pure []
      | some a =>
        have hrest := h.manyUpTo hs n
        exact .bind_kinds hrest (.nil hrest.prompt) (fun as => .pure (a :: as)) fun _ _ _ => List.nil_subset _
    · cases a? with
      | none => exact List.nil_subset _
      | some a => exact List.Subset.refl _

/-- Items one after the other. -/
theorem Honest.many (progress : Progresses item?) (h : Honest first item?)
    (hs : StopsBefore (TokenReader.afterItem first) item?) : Honest first (many item?) :=
  .of_bounded (h.manyUpTo hs) (manyUpTo_congr progress)

end Many

/-! ### Firm readers -/

/-- An honest reader that stops before firm kinds. -/
structure Firm (first : List TokenKind) (read : TokenReader α) : Prop extends
  StopsBefore (fun _ => TokenKind.firm) read, Honest first read

theorem Firm.of_honest (h : Honest first read) (hs : StopsBefore (fun _ => TokenKind.firm) read) : Firm first read :=
  ⟨hs, h.getsPast⟩

/-- Readers that suggest firm kinds can be put one behind the other. -/
theorem Firm.bind (hr : Firm TokenKind.firm read) (hn : ∀ a, Firm TokenKind.firm (next a)) :
    Firm TokenKind.firm (read >>= next) :=
  .of_honest (.bind hr.toHonest hr.toStopsBefore fun a => (hn a).toHonest)
    (.bind hr.toStopsBefore fun a => (hn a).toStopsBefore)

theorem Firm.of_bounded {read : Nat → TokenReader α} (h : ∀ n, Firm first (read n))
    (congr : ∀ {n m ts}, ts.length < n → ts.length < m → read n ts = read m ts) :
    Firm first fun ts => read (ts.length + 1) ts :=
  .of_honest (.of_bounded (fun n => (h n).toHonest) congr) (.of_bounded (fun n => (h n).toStopsBefore) congr)

theorem Firm.pure (a : α) : Firm first (Pure.pure a : TokenReader α) := .of_honest (.pure a) (.pure a)

theorem Firm.fail {problem : Diagnostic} (hr : problem.isUnrecognized = false) (hu : problem.isUnexpected = false) :
    Firm first (fail problem : TokenReader α) :=
  .of_honest (.fail hr hu) (.fail hr)

theorem Firm.eat? {kind : TokenKind} (h : kind ∉ TokenKind.firm) : Firm first (eat? kind) := .of_honest .eat? (.eat? h)

/-- Behind a token that was tried, anything may be suggested. -/
theorem Firm.eat?_bind {kind : TokenKind} {next : Option Token → TokenReader β} (following : List TokenKind)
    (h : kind ∉ TokenKind.firm) (hsome : ∀ t, Firm following (next (some t)))
    (hnone : Firm TokenKind.firm (next none)) : Firm TokenKind.firm (TokenReader.eat? kind >>= next) := by
  refine .of_honest (.eat?_bind following h (fun t => (hsome t).toHonest) hnone.toHonest) (.bind (.eat? h) fun o => ?_)
  cases o with
  | none => exact hnone.toStopsBefore
  | some t => exact (hsome t).toStopsBefore

theorem Firm.take {kinds : List TokenKind} {hint : Option String} (h : kinds ⊆ TokenKind.firm) :
    Firm TokenKind.firm (take kinds hint) :=
  .of_honest (Honest.take.mono h) .take

theorem Firm.expect {kind : TokenKind} {hint : Option String} (h : kind ∈ TokenKind.firm) :
    Firm TokenKind.firm (expect kind hint) := by
  have hc : kind ≠ .blockComment := by
    rintro rfl
    exact absurd h (by decide)
  exact .of_honest ((Honest.expect hc).mono (by simpa using h)) (.expect hc)

theorem Firm.expect_bind {kind : TokenKind} {hint : Option String} {next : Token → TokenReader β}
    (h : kind ≠ .blockComment) (hn : ∀ t, Firm TokenKind.firm (next t)) :
    Firm [kind] (TokenReader.expect kind hint >>= next) :=
  .of_honest (.expect_bind _ h fun t => (hn t).toHonest) (.bind (.expect h) fun t => (hn t).toStopsBefore)

theorem Firm.skipComments : Firm first skipComments := .of_honest .skipComments (.skipComments (by decide))

theorem Firm.lastComment : Firm first lastComment := .of_honest .lastComment (.lastComment (by decide))

theorem Firm.many {item? : TokenReader (Option α)} (progress : Progresses item?) (h : Firm TokenKind.firm item?) :
    Firm TokenKind.firm (many item?) := by
  have hitem : StopsBefore (afterItem TokenKind.firm) item? := ⟨h.prompt, fun taken rest a? hr t us ht => by
    cases a? with
    | none => exact absurd ht List.not_mem_nil
    | some a => exact h.stops hr t us ht⟩
  exact .of_honest (.many progress h.toHonest hitem) (.many progress h.toStopsBefore)

end TokenReader

open TokenReader
open TokenKind (firm)

/-! ## Types -/

namespace FieldType

theorem firm_readSuffix? : Firm firm readSuffix? := by
  refine .bind (.eat? (by decide)) fun o => ?_
  cases o with
  | none => exact .pure none
  | some t => exact .bind (.expect (by decide)) fun closing => .pure (some closing.span)

section Inner

variable {inner : TokenReader FieldType}

theorem firm_readMap (h : Firm firm inner) (word : Token) : Firm [.openBracket] (readMap inner word) := by
  refine .expect_bind (by decide) fun _ => .bind h fun key => ?_
  split
  · exact .bind (.expect (by decide)) fun _ => .bind h fun value => .bind (.expect (by decide)) fun closing => .pure _
  · exact .fail rfl rfl

theorem firm_readArray (h : Firm firm inner) (word : Token) : Firm [.openBracket] (readArray inner word) :=
  .expect_bind (by decide) fun _ => .bind h fun _ => .bind (.expect (by decide)) fun _ => .pure _

/-- An opening bracket is wanted behind a reserved word only, and an identifier where there is none. -/
theorem firm_readBase (h : Firm firm inner) : Firm firm (readBase inner) :=
  .eat?_bind _ (by decide) (fun word => firm_readMap h word) <|
    .eat?_bind _ (by decide) (fun word => firm_readArray h word) <|
      .bind (.expect (by decide)) fun name => .pure (ofName name)

end Inner

/-- Types of bounded depth, by induction on the bound. -/
theorem firm_readUpTo : ∀ depth : Nat, Firm firm (readUpTo depth)
  | 0 => .fail rfl rfl
  | depth + 1 =>
    .bind .skipComments fun _ => .bind (firm_readBase (firm_readUpTo depth)) fun base =>
      .bind (.many progresses_readSuffix? firm_readSuffix?) fun closings => .pure (base.withSuffixes closings)

theorem firm_read : Firm firm read := .of_bounded firm_readUpTo readUpTo_congr

end FieldType

/-! ## Attributes -/

namespace Attribute

theorem argumentKinds_subset (keyword : String) : argumentKinds keyword ⊆ firm := by
  unfold argumentKinds
  split <;> decide

theorem firm_readArgument (keyword : String) : Firm firm (readArgument keyword) := by
  refine .bind (.eat? (by decide)) fun o => ?_
  cases o with
  | none => exact .pure _
  | some t =>
    exact .bind (.take (argumentKinds_subset keyword)) fun literal => .bind (.expect (by decide)) fun _ => .pure _

theorem firm_read? : Firm firm read? := by
  refine .bind (.eat? (by decide)) fun o => ?_
  cases o with
  | none => exact .pure none
  | some t =>
    refine .bind (.expect (by decide)) fun name => .bind (firm_readArgument name.lexeme) fun value =>
      .bind (.expect (by decide)) fun _ => ?_
    cases ofKeyword? name.lexeme value.1 value.2 with
    | none => exact .fail rfl rfl
    | some a => exact .pure (some a)

end Attribute

/-! ## Fields -/

namespace Field

theorem firm_readInteger (hint : String) : Firm firm (readInteger hint) := by
  refine .bind (.expect (by decide)) fun number => ?_
  cases Text.signed32? number.lexeme.toList with
  | none => exact .fail rfl rfl
  | some n => exact .pure n

theorem firm_readIndex (kind : DefinitionKind) : Firm firm (readIndex kind) := by
  cases kind with
  | enum | struct => exact .pure 0
  | message =>
    exact .bind (firm_readInteger _) fun index => .bind (.expect (by decide)) fun _ =>
      .bind (.expect (by decide)) fun _ => .pure index

theorem firm_readType (owner : Token) (kind : DefinitionKind) : Firm firm (readType owner kind) := by
  cases kind with
  | enum => exact .pure _
  | struct | message => exact FieldType.firm_read

theorem stopsBefore_readName : StopsBefore (fun _ => firm) readName where
  prompt := prompt_readName
  stops taken rest a ha t us _ := by
    obtain ⟨n, rfl, hn⟩ := exists_of_readName ha
    obtain rfl : taken = n.tokens := List.append_cancel_right hn
    exact readName_tokens n (t :: us)

/-- An identifier is wanted for a name. If it is spelled like a reserved word, it is refused for that. -/
theorem honest_readName : Honest firm readName := by
  have hname : Honest [.identifier] (current >>= fun candidate => if isReserved candidate then
      fail (.reservedIdentifier candidate.lexeme candidate.span) else expect .identifier none) := by
    refine .ite (.expect (by decide)) (fun _ => .fail rfl) (fun t ts problem rest h => ?_) fun t us ht hr => .inr ?_
    · obtain ⟨rfl, _⟩ := Reading.failed.inj h
      rfl
    · have hk : t.kind = .identifier := List.mem_singleton.1 ht
      exact ⟨hk, by rwa [isReserved_identifier hk] at hr, rfl⟩
  exact .bind .skipComments (.skipComments (by decide)) fun _ => hname.mono (by decide)

theorem firm_readConstant (index : Int) (kind : DefinitionKind) : Firm firm (readConstant index kind) := by
  cases kind with
  | enum => exact .bind (.expect (by decide)) fun _ => firm_readInteger _
  | struct | message => exact .pure index

theorem firm_read (kind : DefinitionKind) (owner : Token) (documentation : String) :
    Firm firm (read kind owner documentation) :=
  .bind Attribute.firm_read? fun _ => .bind (firm_readIndex kind) fun index => .bind (firm_readType owner kind) fun _ =>
    .bind (.of_honest honest_readName stopsBefore_readName) fun _ => .bind (firm_readConstant index kind) fun _ =>
      .bind (.expect (by decide)) fun _ => .pure _

/-- Nothing but a closing brace ends the fields of a body, and it is not wanted where a field may begin. -/
theorem honest_read? (kind : DefinitionKind) (owner : Token) : Honest firm (read? kind owner) :=
  .bind .lastComment (.lastComment (by decide)) fun documentation =>
    .unless (by decide) (Firm.bind (firm_read kind owner documentation) fun f => .pure (some f)).toHonest

theorem honest_many (kind : DefinitionKind) (owner : Token) : Honest firm (many (read? kind owner)) :=
  .many (progresses_read? kind owner) (honest_read? kind owner)
    (.afterItem (prompt_read? kind owner) exists_of_read? (read?_tokens owner))

/-- The fields of a body end in front of any closing brace. -/
theorem stopsBefore_many (kind : DefinitionKind) (owner : Token) :
    StopsBefore (fun _ => [.closeBrace]) (many (read? kind owner)) where
  prompt := .many (progresses_read? kind owner) (prompt_read? kind owner)
  stops taken rest fs h t us ht := by
    obtain ⟨ds, mid, rfl, hds, hstop⟩ := exists_of_many exists_of_read? h
    obtain ⟨cs, rfl⟩ := exists_of_read?_none hstop
    obtain rfl : taken = ds.flatMap Derivation.tokens ++ cs.tokens :=
      List.append_cancel_right (hds.trans (List.append_assoc ..).symm)
    let closing : Commented .closeBrace := ⟨⟨t, List.mem_singleton.1 ht⟩, cs⟩
    have hmany := many_tokens (progresses_read? kind owner) ds (fun d _ => read?_tokens owner d)
      (read?_of_closeBrace owner closing us)
    simpa [closing, Commented.tokens] using hmany

end Field

/-! ## Definitions -/

namespace DefinitionKind

theorem exists_word {kind : TokenKind} (h : kind ∈ [TokenKind.enum, .struct, .message]) :
    ∃ k : DefinitionKind, kind = k.word := by
  simp only [List.mem_cons, List.not_mem_nil, or_false] at h
  rcases h with rfl | rfl | rfl
  · exact ⟨enum, rfl⟩
  · exact ⟨struct, rfl⟩
  · exact ⟨message, rfl⟩

theorem stopsBefore_read : StopsBefore (fun _ => firm) read where
  prompt := prompt_read
  stops taken rest kind h t us _ := by
    obtain ⟨word, hword⟩ := exists_of_read h
    obtain rfl : taken = [word.token] := List.append_cancel_right hword
    exact read_token word (t :: us)

theorem honest_read : Honest firm read where
  prompt := prompt_read
  getsPast ts expected actual hint rest h := by
    cases ts with
    | nil => simp [read, bind_apply, current] at h
    | cons u us =>
      cases hu : ofKeyword? u.kind with
      | some k =>
        rw [read_token ⟨u, ofKeyword?_eq_some_iff.1 hu⟩] at h
        cases h
      | none =>
        simp only [read, bind_apply, current, hu, fail, Reading.failed.injEq, Diagnostic.unexpectedToken.injEq] at h
        obtain ⟨⟨rfl, rfl, _⟩, rfl⟩ := h
        refine ⟨[], us, rfl, rfl, fun ha => ?_, fun _ => by decide, fun t us' ht => .inl ?_⟩
        · obtain ⟨k, hk⟩ := exists_word ha
          rw [ofKeyword?_eq_some_iff.2 hk] at hu
          cases hu
        · obtain ⟨k, hk⟩ := exists_word ht
          rw [List.nil_append, read_token ⟨t, hk⟩]
          exact List.suffix_rfl

end DefinitionKind

namespace Definition

/-- The fields of a body and its closing brace. -/
theorem honest_body (kind : DefinitionKind) (owner : Token) {α : Type} (result : List Field → Token → α) :
    Honest (.closeBrace :: firm) (many (Field.read? kind owner) >>= fun fields =>
      expect .closeBrace none >>= fun closing => Pure.pure (result fields closing)) := by
  have hfields := (Field.honest_many kind owner).mono (List.subset_cons_self .closeBrace firm)
  refine .bind_kinds hfields (Field.stopsBefore_many kind owner) (fun fields => ?_) fun _ _ _ => by simp
  exact .expect_bind firm (by decide) fun closing => .pure (result fields closing)

theorem honest_read? : Honest firm read? := by
  have hattributes := Firm.many Attribute.progresses_read? Attribute.firm_read?
  have hmodifier : Firm firm (eat? .readonly) := .eat? (by decide)
  have hname (kind : DefinitionKind) : Firm firm (expect .identifier (some (nameHint kind))) := .expect (by decide)
  refine .bind .lastComment (.lastComment (by decide)) fun documentation => .unless (by decide) ?_
  refine .bind hattributes.toHonest hattributes.toStopsBefore fun attributes => ?_
  refine .bind hmodifier.toHonest hmodifier.toStopsBefore fun modifier => ?_
  refine .bind DefinitionKind.honest_read DefinitionKind.stopsBefore_read fun kind => ?_
  refine .bind (hname kind).toHonest (hname kind).toStopsBefore fun name => ?_
  exact (Honest.expect_bind _ (by decide) fun _ => honest_body kind name _).mono (by decide)

end Definition

/-! ## Definitions one after the other -/

namespace Progress

theorem stopsBefore_read? : StopsBefore (afterItem firm) Definition.read? := by
  have sound {ts rest : List Token} {d : Token × Definition} (h : Definition.read? ts = .done (some d) rest) :
      ∃ e : Definition.Derivation, (e.name.token, e.definition) = d ∧ ts = e.tokens ++ rest := by
    obtain ⟨e, hname, hd, hts⟩ := Definition.exists_of_read? h
    exact ⟨e, Prod.ext hname hd, hts⟩
  exact .afterItem Definition.prompt_read? sound Definition.read?_tokens

/-- Definitions are read honestly, by induction on the bound. -/
theorem honest_upTo : ∀ (n : Nat) (before : List Definition), Honest firm fun ts => (upTo n before ts).reading
  | 0, _ => Honest.fail (rfl : Diagnostic.missingEndOfFile.isUnrecognized = false) rfl
  | n + 1, before => by
    rw [reading_upTo]
    refine .bind_kinds Definition.honest_read? stopsBefore_read? (fun d? => ?_) fun _ d? _ => ?_
    · cases d? with
      | none => exact .pure before
      | some d =>
        rcases readFollowing_some n before d with h | h
        · rw [h]
          exact .fail rfl rfl
        · rw [h]
          exact honest_upTo n (before ++ [d.2])
    · cases d? with
      | none => exact List.nil_subset _
      | some d => exact List.Subset.refl _

theorem honest_ofTokens : Honest firm fun ts => (ofTokens ts).reading :=
  .of_bounded (fun n => honest_upTo n []) fun hn hm => by rw [upTo_congr hn hm]

end Progress

/-! ## The place of a problem -/

namespace Token

/-- At most an end of file is added to a token list. -/
theorem exists_terminated_eq (tokens : List Token) :
    ∃ ends, terminated tokens = tokens ++ ends ∧ ends.length ≤ 1 := by
  unfold terminated
  split
  · rename_i h
    exact ⟨_, by rw [List.getLast?_eq_none_iff.1 h, List.nil_append], by simp⟩
  · split
    · exact ⟨[], (List.append_nil _).symm, by simp⟩
    · exact ⟨_, rfl, by simp⟩

/-- In front of a token of a terminated list stand tokens that were given. -/
theorem take_of_terminated {tokens taken us : List Token} {t : Token} (h : terminated tokens = taken ++ t :: us) :
    tokens.take taken.length = taken := by
  obtain ⟨ends, hends, hlength⟩ := exists_terminated_eq tokens
  rw [hends] at h
  have hle : taken.length ≤ tokens.length := by
    have hl := congrArg List.length h
    rw [List.length_append, List.length_append, List.length_cons] at hl
    omega
  have htake := congrArg (List.take taken.length) h
  rwa [List.take_append_of_le_length hle, List.take_left' rfl] at htake

end Token

namespace Schema

/-- The place of the token under the cursor where the reading of definitions ends: the number of tokens before it. -/
def stop (tokens : List Token) : Nat :=
  (Token.terminated tokens).length - (Progress.ofTokens (Token.terminated tokens)).rest.length

variable {tokens taken us : List Token} {ns : String} {expected : List TokenKind} {actual t : Token}
  {hint : Option String}

theorem stop_eq (h : Token.terminated tokens = taken ++ (Progress.ofTokens (Token.terminated tokens)).rest) :
    stop tokens = taken.length := by
  have hl := congrArg List.length h
  rw [List.length_append] at hl
  rw [stop, hl, Nat.add_sub_cancel]

/-- An unexpected token is the one under the cursor, and reading gets past each of the wanted kinds there. -/
theorem exists_of_unexpected (h : ofTokens tokens ns = .error (.unexpectedToken expected actual hint)) :
    ∃ us, Token.terminated tokens = tokens.take (stop tokens) ++ actual :: us ∧
      stop tokens = (tokens.take (stop tokens)).length ∧ actual.kind ∉ expected ∧
        ∀ t us', t.kind ∈ expected →
          (Progress.ofTokens (tokens.take (stop tokens) ++ t :: us')).reading.GetsPast t us' := by
  rcases problem_of_ofTokens h with hp | ⟨_, r, hr⟩
  · have hfailed := Progress.reading_eq_failed_iff.2 ⟨hp, rfl⟩
    obtain ⟨taken, us, htokens, hrest, ha, _, hpast⟩ := Progress.honest_ofTokens.getsPast hfailed
    have hstop : stop tokens = taken.length := stop_eq (by rw [hrest]; exact htokens)
    have htake : tokens.take (stop tokens) = taken := by rw [hstop, Token.take_of_terminated htokens]
    rw [htake]
    exact ⟨us, htokens, hstop, ha, hpast⟩
  · cases hr

/-- A reading that gets past a token ends behind it. -/
theorem stop_or_reserved (h : ∀ us', (Progress.ofTokens (taken ++ t :: us')).reading.GetsPast t us') (us : List Token) :
    taken.length < stop (taken ++ t :: us) ∨ t.kind = .identifier ∧ isKeyword t.lexeme = true ∧
      ∀ ns, ofTokens (taken ++ t :: us) ns = .error (.reservedIdentifier t.lexeme t.span) := by
  obtain ⟨us', hus⟩ := Token.exists_terminated_append taken t us
  rcases h us' with hsuffix | ⟨hk, hw, hreserved⟩
  · left
    have hl := hsuffix.length_le
    rw [Progress.rest_reading] at hl
    rw [stop, hus, List.length_append, List.length_cons]
    omega
  · refine .inr ⟨hk, hw, fun ns => ?_⟩
    rw [ofTokens, hus, Progress.finish, (Progress.reading_eq_failed_iff.1 hreserved).1]

/-- Suggestions are honest. If reading fails at an unexpected token, the token is of none of the wanted kinds. With any
token of a wanted kind in its place, and any tokens behind that one, no token at this place or before it is unexpected:
reading ends behind it, unless it is an identifier that is spelled like a reserved word, which is refused for that. -/
theorem ofTokens_honest (h : ofTokens tokens ns = .error (.unexpectedToken expected actual hint)) :
    (Token.terminated tokens)[stop tokens]? = some actual ∧ actual.kind ∉ expected ∧
      ∀ (t : Token) (us : List Token), t.kind ∈ expected →
        let others := tokens.take (stop tokens) ++ t :: us
        (∀ ns' expected' actual' hint', ofTokens others ns' = .error (.unexpectedToken expected' actual' hint') →
          (Token.terminated others)[stop others]? = some actual' ∧ stop tokens < stop others) ∧
        (stop tokens < stop others ∨ t.kind = .identifier ∧ isKeyword t.lexeme = true ∧
          ∀ ns', ofTokens others ns' = .error (.reservedIdentifier t.lexeme t.span)) := by
  -- what stands at the place where reading ends
  have hplace {tokens : List Token} {ns : String} {expected : List TokenKind} {actual : Token} {hint : Option String}
      (h : ofTokens tokens ns = .error (.unexpectedToken expected actual hint)) :
      (Token.terminated tokens)[stop tokens]? = some actual := by
    obtain ⟨us, htokens, hstop, _⟩ := exists_of_unexpected h
    rw [htokens, List.getElem?_append_right (Nat.le_of_eq hstop.symm), ← hstop, Nat.sub_self]
    rfl
  obtain ⟨_, _, hstop, ha, hpast⟩ := exists_of_unexpected h
  refine ⟨hplace h, ha, fun t us ht => ?_⟩
  have hbehind := stop_or_reserved (fun us' => hpast t us' ht) us
  rw [← hstop] at hbehind
  refine ⟨fun ns' expected' actual' hint' hothers => ⟨hplace hothers, ?_⟩, hbehind⟩
  rcases hbehind with hlt | ⟨_, _, hreserved⟩
  · exact hlt
  · rw [hreserved ns'] at hothers
    cases hothers

/-- An argument of an opcode has to be a string or a number. With a number in its place, the closing parenthesis that
is missing then is missed behind the number. -/
theorem ofTokens_honest_argument :
    let token (kind : TokenKind) (lexeme : String) : Token := ⟨kind, lexeme, Span.zero⟩
    let opening := [token .openBracket "[", token .identifier "opcode", token .openParenthesis "("]
    let tokens := opening ++ [token .identifier "x"]
    ofTokens tokens "N" = .error (.unexpectedToken [.escapedString, .rawString, .number] (token .identifier "x") none) ∧
      stop tokens = 3 ∧ ofTokens (opening ++ [token .number "1"]) "N" =
        .error (.unexpectedToken [.closeParenthesis] (Token.endOfFile (Span.point 0 Position.zero)) none) ∧
        3 < stop (opening ++ [token .number "1"]) := by
  intro token opening tokens
  have h : ofTokens tokens "N" = .error
      (.unexpectedToken [.escapedString, .rawString, .number] (token .identifier "x") none) := by decide +kernel
  have hstop : stop tokens = 3 := by decide +kernel
  have hnumber : ofTokens (opening ++ [token .number "1"]) "N" = .error
      (.unexpectedToken [.closeParenthesis] (Token.endOfFile (Span.point 0 Position.zero)) none) := by decide +kernel
  have hothers := (ofTokens_honest h).2.2 (token .number "1") [] (by decide)
  simp only [hstop] at hothers
  exact ⟨h, hstop, hnumber, (hothers.1 "N" _ _ _ hnumber).2⟩

end Schema

end SchemaLang
