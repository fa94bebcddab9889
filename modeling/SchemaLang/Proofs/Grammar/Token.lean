import SchemaLang.Token.Reader

/-!
# Derivations: tokens and comments

The terminals of the grammar, and what the primitive readers make of them.

* `Comments` is a run of comments, `TokenOf kind` a token of a kind, `Commented kind` such a token after a run of
  comments. `tokens` gives the stretch of a token list that each of them stands for.
* Soundness (`exists_of_expect`, `exists_of_eat?`, ...): where a primitive reader gives a value, the tokens that it took
  are those of a terminal.
* Completeness (`expect_tokens`, `lastComment_tokens`, ...): on the tokens of a terminal it gives the value, whatever
  follows.
* Both for repetition: `exists_of_many` and `many_tokens`. The bound of `many` is never reached by a reader that takes a
  token with each item (`many_eq`).
* What is said of the derivations of single items is said of items one after the other
  (`Token.Partwise.exists_of_flatMap`).
-/

namespace SchemaLang

/-! ## Terminals -/

/-- A run of comments. -/
structure Comments where
  tokens : List Token
  isComment : ∀ c ∈ tokens, c.isComment = true

namespace Comments

/-- The documentation that a run of comments gives: the text of the last. -/
def documentation (cs : Comments) : String := cs.tokens.getLast?.elim "" Token.lexeme

/-- No comments. -/
def none : Comments := ⟨[], by simp⟩

/-- Two runs of comments, one after the other. -/
def append (cs ds : Comments) : Comments where
  tokens := cs.tokens ++ ds.tokens
  isComment c hc := (List.mem_append.1 hc).elim (cs.isComment c) (ds.isComment c)

end Comments

/-- A token of a kind. -/
structure TokenOf (kind : TokenKind) where
  token : Token
  kind_eq : token.kind = kind

/-- A token of a kind, after a run of comments. -/
structure Commented (kind : TokenKind) extends TokenOf kind where
  comments : Comments

/-- The tokens of a commented token. -/
def Commented.tokens {kind : TokenKind} (c : Commented kind) : List Token := c.comments.tokens ++ [c.token]

/-- A token without comments. -/
def TokenOf.uncommented {kind : TokenKind} (t : TokenOf kind) : Commented kind := ⟨t, Comments.none⟩

@[simp] theorem TokenOf.tokens_uncommented {kind : TokenKind} (t : TokenOf kind) :
    t.uncommented.tokens = [t.token] := rfl

/-- A commented token with more comments in front. -/
def Commented.after {kind : TokenKind} (c : Commented kind) (cs : Comments) : Commented kind :=
  ⟨c.toTokenOf, cs.append c.comments⟩

@[simp] theorem Commented.token_after {kind : TokenKind} (c : Commented kind) (cs : Comments) :
    (c.after cs).token = c.token := rfl

@[simp] theorem Commented.tokens_after {kind : TokenKind} (c : Commented kind) (cs : Comments) :
    (c.after cs).tokens = cs.tokens ++ c.tokens := by
  simp [after, tokens, Comments.append]

theorem Comments.isComment_eq {cs : Comments} {t : Token} (h : t ∈ cs.tokens) : t.kind = .blockComment := by
  simpa [Token.isComment] using cs.isComment t h

/-- A token of another kind is no comment. -/
theorem TokenOf.isComment_eq_false {kind : TokenKind} (t : TokenOf kind) (h : kind ≠ .blockComment) :
    t.token.isComment = false := by
  simp [Token.isComment, t.kind_eq, h]

theorem Commented.token_mem {kind : TokenKind} (c : Commented kind) : c.token ∈ c.tokens :=
  List.mem_append_right _ List.mem_cons_self

theorem Commented.getLast?_tokens {kind : TokenKind} (c : Commented kind) (ts : List Token) :
    (ts ++ c.tokens).getLast? = some c.token := by
  rw [tokens, ← List.append_assoc, List.getLast?_concat]

theorem Commented.length_tokens {kind : TokenKind} (c : Commented kind) : 0 < c.tokens.length := by
  simp [Commented.tokens]

/-- A token list that starts with a comment or with a token of one of some kinds. -/
def StartsWith (kinds : List TokenKind) (ts : List Token) : Prop :=
  ∃ t us, ts = t :: us ∧ (t.kind ∈ kinds ∨ t.kind = .blockComment)

theorem Commented.startsWith {kind : TokenKind} (c : Commented kind) (rest : List Token) :
    StartsWith [kind] (c.tokens ++ rest) := by
  rcases hc : c.comments.tokens with _ | ⟨t, us⟩
  · exact ⟨c.token, rest, by simp [Commented.tokens, hc], .inl (by simp [c.kind_eq])⟩
  · exact ⟨t, us ++ c.token :: rest, by simp [Commented.tokens, hc],
      .inr (Comments.isComment_eq (hc ▸ List.mem_cons_self))⟩

theorem StartsWith.mono {kinds more : List TokenKind} {ts : List Token} (h : StartsWith kinds ts)
    (hk : kinds ⊆ more := by decide) : StartsWith more ts := by
  obtain ⟨t, us, ht, hm⟩ := h
  exact ⟨t, us, ht, hm.imp_left fun he => hk he⟩

/-- The first token has none of the other kinds. -/
theorem StartsWith.exists_ne {kinds : List TokenKind} {ts : List Token} (h : StartsWith kinds ts) (kind : TokenKind)
    (hk : kind ∉ kinds := by decide) (hc : kind ≠ .blockComment := by decide) :
    ∃ t us, ts = t :: us ∧ t.kind ≠ kind := by
  obtain ⟨t, us, ht, hm⟩ := h
  refine ⟨t, us, ht, ?_⟩
  rintro rfl
  rcases hm with hm | hm
  · exact hk hm
  · exact hc hm

/-- A commented token has tokens of its own kind and comments only. -/
theorem Commented.kind_of_mem {kind : TokenKind} {c : Commented kind} {t : Token} (h : t ∈ c.tokens) :
    t.kind = kind ∨ t.kind = .blockComment := by
  rcases List.mem_append.1 h with h | h
  · exact .inr (Comments.isComment_eq h)
  · obtain rfl := List.mem_singleton.1 h
    exact .inl c.kind_eq

theorem Commented.kind_ne_endOfFile {kind : TokenKind} (c : Commented kind) {t : Token} (h : t ∈ c.tokens)
    (hk : kind ≠ .endOfFile := by decide) : t.kind ≠ .endOfFile := by
  rcases c.kind_of_mem h with he | he
  · rwa [he]
  · simp [he]

namespace TokenReader

variable {α β : Type} {ts rest : List Token}

/-! ## Sequencing -/

theorem bind_eq_done_iff {read : TokenReader α} {next : α → TokenReader β} {b : β} :
    (read >>= next) ts = .done b rest ↔ ∃ a mid, read ts = .done a mid ∧ next a mid = .done b rest := by
  rw [bind_apply]
  constructor
  · intro h
    cases hr : read ts with
    | failed problem mid => simp [hr] at h
    | done a mid => exact ⟨a, mid, rfl, by simpa [hr] using h⟩
  · rintro ⟨a, mid, hr, hn⟩
    simpa [hr] using hn

/-- Sequences agree if their parts agree where they are reached. -/
theorem bind_congr {read read' : TokenReader α} {next next' : α → TokenReader β} (hr : read ts = read' ts)
    (hn : ∀ a rest, read ts = .done a rest → next a rest = next' a rest) :
    (read >>= next) ts = (read' >>= next') ts := by
  rw [bind_apply, bind_apply, ← hr]
  cases h : read ts with
  | failed problem rest => rfl
  | done a rest => exact hn a rest h

theorem pure_eq_done_iff {a b : α} : (pure a : TokenReader α) ts = .done b rest ↔ a = b ∧ ts = rest := by
  simp [pure_apply]

theorem fail_ne_done {problem : Diagnostic} {a : α} : (fail problem : TokenReader α) ts ≠ .done a rest := by
  simp [fail]

/-- A reader that ends with an item does not give none. -/
theorem some_ne_none {a : α} : (pure (some a) : TokenReader (Option α)) ts ≠ .done none rest := by
  simp [pure_apply]

theorem bind_ne_none {read : TokenReader α} {next : α → TokenReader (Option β)}
    (h : ∀ a mid, next a mid ≠ .done none rest) : (read >>= next) ts ≠ .done none rest := by
  intro hr
  obtain ⟨a, mid, _, hn⟩ := bind_eq_done_iff.1 hr
  exact h a mid hn

/-! ## Single tokens -/

theorem current_eq_done_iff {t : Token} : current ts = .done t rest ↔ ∃ mid, ts = t :: mid ∧ rest = t :: mid := by
  cases ts with
  | nil => simp [current]
  | cons u us =>
    simp only [current, Reading.done.injEq, List.cons.injEq]
    constructor
    · rintro ⟨rfl, rfl⟩
      exact ⟨us, ⟨rfl, rfl⟩, rfl⟩
    · rintro ⟨mid, ⟨rfl, rfl⟩, rfl⟩
      exact ⟨rfl, rfl⟩

theorem advance_eq_done_iff {u : Unit} : advance ts = .done u rest ↔ ∃ t, ts = t :: rest := by
  cases ts <;> simp [advance]

/-- A token that is eaten has the kind. -/
theorem exists_of_eat?_some {kind : TokenKind} {t : Token} (h : eat? kind ts = .done (some t) rest) :
    ∃ m : TokenOf kind, m.token = t ∧ ts = m.token :: rest := by
  cases ts with
  | nil => simp [eat?] at h
  | cons u us =>
    rw [eat?] at h
    split at h
    · rename_i hk
      simp only [Reading.done.injEq, Option.some.injEq] at h
      obtain ⟨rfl, rfl⟩ := h
      exact ⟨⟨u, hk⟩, rfl, rfl⟩
    · simp at h

/-- If no token is eaten, the cursor stays, at a token of another kind. -/
theorem eq_of_eat?_none {kind : TokenKind} (h : eat? kind ts = .done none rest) :
    ts = rest ∧ ∀ t ∈ rest.head?, t.kind ≠ kind := by
  cases ts with
  | nil => simp [eat?] at h
  | cons u us =>
    rw [eat?] at h
    split at h
    · simp at h
    · rename_i hk
      simp only [Reading.done.injEq, true_and] at h
      subst h
      exact ⟨rfl, by simpa using hk⟩

theorem eat?_of_kind {kind : TokenKind} {t : Token} (h : t.kind = kind) : eat? kind (t :: ts) = .done (some t) ts := by
  rw [eat?, if_pos h]

theorem eat?_of_kind_ne {kind : TokenKind} {t : Token} (h : t.kind ≠ kind) :
    eat? kind (t :: ts) = .done none (t :: ts) := by
  rw [eat?, if_neg h]

theorem take_eq_done_iff {kinds : List TokenKind} {hint : Option String} {t : Token} :
    take kinds hint ts = .done t rest ↔ ts = t :: rest ∧ t.kind ∈ kinds := by
  cases ts with
  | nil => simp [take]
  | cons u us =>
    rw [take]
    split
    · rename_i hk
      simp only [List.contains_eq_mem, decide_eq_true_eq] at hk
      simp only [Reading.done.injEq, List.cons.injEq]
      constructor
      · rintro ⟨rfl, rfl⟩
        exact ⟨⟨rfl, rfl⟩, hk⟩
      · rintro ⟨⟨rfl, rfl⟩, _⟩
        exact ⟨rfl, rfl⟩
    · rename_i hk
      simp only [List.contains_eq_mem, decide_eq_true_eq] at hk
      simp only [reduceCtorEq, List.cons.injEq, false_iff, not_and, and_imp]
      rintro rfl _
      exact hk

/-! ## Comments -/

/-- The comments at the front of a token list. -/
def leading (ts : List Token) : Comments :=
  ⟨ts.takeWhile Token.isComment, List.all_eq_true.1 List.all_takeWhile⟩

theorem leading_append (ts : List Token) : (leading ts).tokens ++ ts.dropWhile Token.isComment = ts :=
  List.takeWhile_append_dropWhile

theorem dropWhile_tokens {t : Token} (cs : Comments) (h : t.isComment = false) :
    (cs.tokens ++ t :: ts).dropWhile Token.isComment = t :: ts := by
  rw [List.dropWhile_append_of_pos cs.isComment, List.dropWhile_cons_of_neg (by simp [h])]

theorem takeWhile_tokens {t : Token} (cs : Comments) (h : t.isComment = false) :
    (cs.tokens ++ t :: ts).takeWhile Token.isComment = cs.tokens := by
  rw [List.takeWhile_append_of_pos cs.isComment, List.takeWhile_cons_of_neg (by simp [h]), List.append_nil]

theorem isComment_dropWhile : ∀ t ∈ (ts.dropWhile Token.isComment).head?, t.isComment = false := by
  intro t ht
  have h := List.head?_dropWhile_not Token.isComment ts
  simpa [Option.mem_def.1 ht] using h

theorem exists_of_skipComments {u : Unit} (h : skipComments ts = .done u rest) :
    ∃ cs : Comments, ts = cs.tokens ++ rest ∧ ∀ t ∈ rest.head?, t.isComment = false := by
  simp only [skipComments, Reading.done.injEq, true_and] at h
  subst h
  exact ⟨leading ts, (leading_append ts).symm, isComment_dropWhile⟩

theorem skipComments_tokens {t : Token} (cs : Comments) (h : t.isComment = false) (ts : List Token) :
    skipComments (cs.tokens ++ t :: ts) = .done () (t :: ts) := by
  rw [skipComments, dropWhile_tokens cs h]

theorem exists_of_lastComment {documentation : String} (h : lastComment ts = .done documentation rest) :
    ∃ cs : Comments, cs.documentation = documentation ∧ ts = cs.tokens ++ rest ∧
      ∀ t ∈ rest.head?, t.isComment = false := by
  simp only [lastComment, Reading.done.injEq] at h
  obtain ⟨hd, rfl⟩ := h
  exact ⟨leading ts, hd, (leading_append ts).symm, isComment_dropWhile⟩

/-- Comments that document something end before its first token. -/
theorem exists_of_documented {next : String → Token → TokenReader α} {a : α}
    (h : (lastComment >>= fun documentation => current >>= next documentation) ts = .done a rest) :
    ∃ (cs : Comments) (t : Token) (us : List Token), ts = cs.tokens ++ t :: us ∧ t.isComment = false ∧
      next cs.documentation t (t :: us) = .done a rest := by
  obtain ⟨documentation, ts₁, hd, h₁⟩ := bind_eq_done_iff.1 h
  obtain ⟨cs, rfl, rfl, hc⟩ := exists_of_lastComment hd
  obtain ⟨t, ts₂, ht, h₂⟩ := bind_eq_done_iff.1 h₁
  obtain ⟨us, rfl, rfl⟩ := current_eq_done_iff.1 ht
  exact ⟨cs, t, us, rfl, hc t rfl, h₂⟩

theorem lastComment_tokens {t : Token} (cs : Comments) (h : t.isComment = false) (ts : List Token) :
    lastComment (cs.tokens ++ t :: ts) = .done cs.documentation (t :: ts) := by
  rw [lastComment, dropWhile_tokens cs h, takeWhile_tokens cs h]
  rfl

/-- An expected token comes after comments at most. -/
theorem exists_of_expect {kind : TokenKind} {hint : Option String} {t : Token}
    (h : expect kind hint ts = .done t rest) : ∃ c : Commented kind, c.token = t ∧ ts = c.tokens ++ rest := by
  obtain ⟨_, mid, hs, ht⟩ := bind_eq_done_iff.1 h
  obtain ⟨cs, rfl, _⟩ := exists_of_skipComments hs
  obtain ⟨rfl, hk⟩ := take_eq_done_iff.1 ht
  exact ⟨⟨⟨t, List.mem_singleton.1 hk⟩, cs⟩, rfl, by simp [Commented.tokens]⟩

theorem expect_tokens {kind : TokenKind} {hint : Option String} (c : Commented kind)
    (h : kind ≠ .blockComment := by decide) : expect kind hint (c.tokens ++ rest) = .done c.token rest := by
  have hs := skipComments_tokens c.comments (c.isComment_eq_false h) rest
  simp only [expect, bind_apply, Commented.tokens, List.append_assoc, List.singleton_append, hs]
  exact take_eq_done_iff.2 ⟨rfl, by simp [c.kind_eq]⟩

theorem expect_token {kind : TokenKind} {hint : Option String} (t : TokenOf kind)
    (h : kind ≠ .blockComment := by decide) : expect kind hint (t.token :: rest) = .done t.token rest :=
  expect_tokens ⟨t, Comments.none⟩ h

/-! ## Repetition -/

section Many

variable {item? : TokenReader (Option α)}

/-- A reader that takes a token with each item. -/
def Progresses (item? : TokenReader (Option α)) : Prop :=
  ∀ ⦃ts a rest⦄, item? ts = .done (some a) rest → rest.length < ts.length

/-- Two bounds above the number of tokens give the same items. -/
theorem manyUpTo_congr (h : Progresses item?) : ∀ {n m : Nat} {ts : List Token}, ts.length < n → ts.length < m →
    manyUpTo item? n ts = manyUpTo item? m ts
  | n + 1, m + 1, ts, hn, hm => by
    simp only [manyUpTo, bind_apply]
    cases hi : item? ts with
    | failed problem rest => rfl
    | done a? rest =>
      cases a? with
      | none => rfl
      | some a =>
        have hl := h hi
        have hr : manyUpTo item? n rest = manyUpTo item? m rest := manyUpTo_congr h (by omega) (by omega)
        simp only [bind_apply, hr]

/-- Repetition reads an item, if there is one, and goes on. -/
theorem many_eq (h : Progresses item?) (ts : List Token) : many item? ts = (do
    match ← item? with
    | none => return []
    | some a => return a :: (← many item?)) ts := by
  rw [many_apply]
  simp only [manyUpTo, bind_apply]
  cases hi : item? ts with
  | failed problem rest => rfl
  | done a? rest =>
    cases a? with
    | none => rfl
    | some a =>
      simp only [bind_apply, many_apply, manyUpTo_congr h (h hi) (Nat.lt_succ_self rest.length)]

variable {δ : Type} {tokens : δ → List Token} {value : δ → α}

/-- Repeated items are a list of what the items are, up to where there is none. -/
theorem exists_of_manyUpTo
    (sound : ∀ {ts a rest}, item? ts = .done (some a) rest → ∃ d, value d = a ∧ ts = tokens d ++ rest) :
    ∀ {n : Nat} {ts rest : List Token} {as : List α}, manyUpTo item? n ts = .done as rest →
      ∃ (ds : List δ) (mid : List Token), ds.map value = as ∧ ts = ds.flatMap tokens ++ mid ∧
        item? mid = .done none rest
  | 0, _, _, _, h => absurd h fail_ne_done
  | n + 1, ts, rest, as, h => by
    obtain ⟨a?, mid, hi, hn⟩ := bind_eq_done_iff.1 h
    cases a? with
    | none =>
      obtain ⟨rfl, rfl⟩ := pure_eq_done_iff.1 hn
      exact ⟨[], ts, rfl, rfl, hi⟩
    | some a =>
      obtain ⟨bs, rest', hm, hp⟩ := bind_eq_done_iff.1 hn
      obtain ⟨rfl, rfl⟩ := pure_eq_done_iff.1 hp
      obtain ⟨d, rfl, rfl⟩ := sound hi
      obtain ⟨ds, stop, rfl, rfl, hs⟩ := exists_of_manyUpTo sound hm
      exact ⟨d :: ds, stop, rfl, by simp, hs⟩

theorem exists_of_many {as : List α}
    (sound : ∀ {ts a rest}, item? ts = .done (some a) rest → ∃ d, value d = a ∧ ts = tokens d ++ rest)
    (h : many item? ts = .done as rest) :
    ∃ (ds : List δ) (mid : List Token), ds.map value = as ∧ ts = ds.flatMap tokens ++ mid ∧
      item? mid = .done none rest :=
  exists_of_manyUpTo sound h

/-- On the tokens of a list of items, followed by something that is none, repetition reads the items. -/
theorem many_tokens (progress : Progresses item?) (ds : List δ) {mid : List Token}
    (complete : ∀ d ∈ ds, ∀ rest, item? (tokens d ++ rest) = .done (some (value d)) rest)
    (stop : item? mid = .done none rest) : many item? (ds.flatMap tokens ++ mid) = .done (ds.map value) rest := by
  induction ds with
  | nil =>
    rw [many_eq progress]
    simp [bind_apply, stop, pure_apply]
  | cons d ds ih =>
    have hd := complete d List.mem_cons_self (ds.flatMap tokens ++ mid)
    have hds := ih fun e he => complete e (List.mem_cons_of_mem d he)
    rw [many_eq progress]
    simp [bind_apply, pure_apply, hd, hds]

end Many

end TokenReader

/-! ## Items one after the other -/

namespace Token

variable {α β γ δ : Type}

/-- A relation between token lists and other lists that relates appended lists only part by part. -/
structure Partwise (R : List Token → List γ → Prop) : Prop where
  nil : ∀ {ts}, R ts [] → ts = []
  append : ∀ {ts cs ds}, R ts (cs ++ ds) → ∃ us vs, ts = us ++ vs ∧ R us cs ∧ R vs ds

/-- Where each item has a counterpart among derivations, the items one after the other have counterparts one after the
other. -/
theorem Partwise.exists_of_flatMap {R : List Token → List γ → Prop} (hR : Partwise R) {contents : α → List γ}
    {tokens : δ → List Token} (value : δ → β) (expected : α → β) : ∀ {as : List α} {ts : List Token},
    (∀ a ∈ as, ∀ {us}, R us (contents a) → ∃ d, tokens d = us ∧ value d = expected a) →
      R ts (as.flatMap contents) → ∃ ds : List δ, ds.flatMap tokens = ts ∧ ds.map value = as.map expected
  | [], _, _, h => ⟨[], (hR.nil h).symm, rfl⟩
  | a :: as, _, ha, h => by
    obtain ⟨us, vs, rfl, hus, hvs⟩ := hR.append h
    obtain ⟨d, rfl, hd⟩ := ha a List.mem_cons_self hus
    obtain ⟨ds, rfl, hds⟩ := hR.exists_of_flatMap value expected (fun b hb => ha b (List.mem_cons_of_mem a hb)) hvs
    exact ⟨d :: ds, rfl, by rw [List.map_cons, List.map_cons, hd, hds]⟩

end Token

end SchemaLang
