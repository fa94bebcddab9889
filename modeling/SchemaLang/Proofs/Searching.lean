import SchemaLang.Proofs.Scanning
import SchemaLang.Token.Lexer

/-!
# Searching is scanning

A text is read by a search for matches of one pattern. What is found are the elements that scanning takes one behind the
other, as if there were no search.

* The preferred match of the pattern at the front of a text is the element that is scanned there
  (`Element.match?_pattern`). So a search finds this element, or else skips the text up to the next place where an
  element starts (`Element.find?_of_scan?`, `Element.find?_of_not_scan?`).
* Counting lines and columns in a match comes to the same place as moving over it (`Position.past_eq_advance`), and so
  does counting over a whole text (`Position.finish_eq_advance`). The text of a match tells its element
  (`Element.isLayout_text_and_token?`).
* `Token.ofElements` places elements one after the other and keeps those that are tokens. These are the tokens that are
  read (`Token.ofText_eq`, `Token.ofText_eq_ok_iff`).
-/

namespace SchemaLang

/-! ## Matches of patterns -/

namespace Text.Pattern

variable {s : List Char} {next : List Char → Option (List Char)} {p q : Pattern} {allowed : Char → Bool}

theorem run_char_cons (c : Char) : (char allowed).run (c :: s) next = if allowed c then next s else none := rfl

theorem run_only_cons (c d : Char) : (only c).run (d :: s) next = if d = c then next s else none := by
  simp [only, run_char_cons]

theorem run_seq : (seq p q).run s next = p.run s fun rest => q.run rest next := rfl

theorem run_only_eq_none {c : Char} (h : ∀ rest, s ≠ c :: rest) : (only c).run s next = none := by
  cases s with
  | nil => rfl
  | cons d s =>
    rw [run_only_cons, if_neg]
    rintro rfl
    exact h s rfl

/-- A match has to start with the first character of the pattern. -/
theorem run_seq_only_eq_none {c : Char} (h : ∀ rest, s = c :: rest → p.run rest next = none) :
    (seq (only c) p).run s next = none := by
  cases s with
  | nil => rfl
  | cons d s =>
    rw [run_seq, run_only_cons]
    split
    · rename_i hd
      subst hd
      exact h s rfl
    · rfl

theorem run_either : (either p q).run s next = (p.run s next).or (q.run s next) := by
  rw [run]
  cases p.run s next <;> rfl

theorem match?_either : (either p q).match? s = (p.match? s).or (q.match? s) := run_either

theorem run_greedy_cons (c : Char) : (many true (char allowed)).run (c :: s) next =
    if allowed c then ((many true (char allowed)).run s next).or (next (c :: s)) else next (c :: s) := by
  show ((if allowed c then (many true (char allowed)).run s next else none) <|> next (c :: s)) = _
  cases allowed c with
  | false => rfl
  | true => cases (many true (char allowed)).run s next <;> rfl

theorem run_lazy_cons (c : Char) : (many false (char allowed)).run (c :: s) next =
    (next (c :: s)).or (if allowed c then (many false (char allowed)).run s next else none) := by
  show (next (c :: s) <|> if allowed c then (many false (char allowed)).run s next else none) = _
  cases next (c :: s) <;> rfl

/-- A greedy repetition of characters of a class takes them all, if that is accepted. -/
theorem run_greedy_some (allowed : Char → Bool) (s : List Char) :
    (many true (char allowed)).run s some = some (s.dropWhile allowed) := by
  induction s with
  | nil => rfl
  | cons c s ih =>
    rw [run_greedy_cons, ih, List.dropWhile_cons]
    split <;> rfl

/-- A greedy repetition can take a text that belongs to the class as a whole. -/
theorem isSome_run_greedy (hs : ∀ c ∈ s, allowed c = true) (hnext : (next []).isSome = true) :
    ((many true (char allowed)).run s next).isSome = true := by
  induction s with
  | nil => exact hnext
  | cons c s ih =>
    obtain ⟨hc, hs⟩ := List.forall_mem_cons.1 hs
    rw [run_greedy_cons, if_pos hc, Option.isSome_or, ih hs, Bool.true_or]

theorem match?_many1 (c : Char) :
    (many1 allowed).match? (c :: s) = if allowed c then some (s.dropWhile allowed) else none := by
  rw [many1, match?, run_seq, run_char_cons, run_greedy_some]

end Text.Pattern

/-! ## Matches of elements -/

namespace Element

open Text.Pattern

theorem run_block (s : List Char) :
    (many false (char fun _ => true)).run s (fun rest => (seq (only '*') (only '/')).run rest some) =
      (scanBlock? s).map Prod.snd := by
  fun_induction scanBlock? s with
  | case1 => rfl
  | case2 rest => simp [run_lazy_cons, run_seq, run_only_cons]
  | case3 c s hc ih =>
    have hnone : (seq (only '*') (only '/')).run (c :: s) some = none := by
      refine run_seq_only_eq_none fun rest hs => run_only_eq_none fun rest' hs' => ?_
      obtain ⟨rfl, rfl⟩ := List.cons.inj hs
      exact hc rest' rfl hs'
    rw [run_lazy_cons, hnone, if_pos rfl, Option.none_or, ih, Option.map_map]
    rfl

theorem run_raw (s : List Char) :
    (many true (char (· ≠ '\''))).run s (fun rest => (only '\'').run rest some) = (scanRaw? s).map Prod.snd := by
  fun_induction scanRaw? s with
  | case1 => rfl
  | case2 rest => simp [run_greedy_cons, run_only_cons]
  | case3 c s hc ih =>
    have hc : c ≠ '\'' := fun he => hc he
    rw [run_greedy_cons, ih, run_only_cons]
    simp [hc, Option.map_map, Function.comp_def]

theorem run_escapedChar_pair (c : Char) (s : List Char) (next : List Char → Option (List Char)) :
    escapedCharPattern.run ('\\' :: c :: s) next = if c ≠ '\n' then next s else none := by
  rw [escapedCharPattern, run_either, run_seq, run_only_cons, if_pos rfl, run_char_cons, run_char_cons]
  simp

theorem run_escapedChar_cons {c : Char} (hc : c ≠ '\\') (s : List Char) (next : List Char → Option (List Char)) :
    escapedCharPattern.run (c :: s) next = if c ≠ '"' then next s else none := by
  rw [escapedCharPattern, run_either, run_seq, run_only_cons, if_neg hc, run_char_cons]
  simp [hc]

/-- A repetition that goes on before it stops. -/
theorem repeatUpTo_greedy_succ (body : Way) (n : Nat) (s : List Char) (next : List Char → Option (List Char)) :
    repeatUpTo true body (n + 1) s next = (body s fun rest => repeatUpTo true body n rest next).or (next s) := by
  show (body s (fun rest => repeatUpTo true body n rest next) <|> next s) = _
  cases body s fun rest => repeatUpTo true body n rest next <;> rfl

theorem repeatUpTo_escaped {n : Nat} {s : List Char} (hn : s.length ≤ n) :
    repeatUpTo true escapedCharPattern.run n s (fun rest => (only '"').run rest some) =
      (scanEscaped? s).map Prod.snd := by
  induction n generalizing s with
  | zero =>
    obtain rfl := List.length_eq_zero_iff.1 (Nat.le_zero.1 hn)
    rfl
  | succ n ih =>
    rw [repeatUpTo_greedy_succ]
    fun_cases scanEscaped? s with
    | case1 => rfl
    | case2 rest =>
      rw [run_escapedChar_cons (by decide), run_only_cons]
      simp
    | case3 s =>
      rw [run_escapedChar_pair, run_only_cons]
      simp
    | case4 c s hc =>
      rw [run_escapedChar_pair, if_pos hc, ih (by simp at hn; omega), run_only_cons]
      simp [Option.map_map, Function.comp_def]
    | case5 s _ hne =>
      cases s with
      | nil => rfl
      | cons d s => exact (hne d s rfl rfl).elim
    | case6 c s hq hne hc =>
      rw [run_escapedChar_cons hc, if_pos hq, ih (by simpa using hn), run_only_cons, if_neg hq]
      simp [Option.map_map, Function.comp_def]

theorem match?_blockComment (s : List Char) :
    blockCommentPattern.match? ('/' :: '*' :: s) = (scanBlock? s).map Prod.snd := run_block s

theorem match?_lineComment (s : List Char) :
    lineCommentPattern.match? ('/' :: '/' :: s) = some (s.dropWhile (· ≠ '\n')) := run_greedy_some _ s

theorem match?_escapedString (s : List Char) :
    escapedStringPattern.match? ('"' :: s) = (scanEscaped? s).map Prod.snd := repeatUpTo_escaped (Nat.le_refl _)

theorem match?_rawString (s : List Char) :
    rawStringPattern.match? ('\'' :: s) = (scanRaw? s).map Prod.snd := run_raw s

theorem match?_only {c d : Char} (h : d ≠ c) (p : Text.Pattern) (s : List Char) :
    (seq (only c) p).match? (d :: s) = none :=
  run_seq_only_eq_none fun _ hs => absurd (List.cons.inj hs).1 h

/-- Two marks that are not both at the front of a text. -/
theorem run_only_only {a b c : Char} {s : List Char} (h : ∀ rest, c = a → s ≠ b :: rest) (p : Text.Pattern)
    (next : List Char → Option (List Char)) : (seq (only a) (seq (only b) p)).run (c :: s) next = none := by
  refine run_seq_only_eq_none fun rest hs => run_seq_only_eq_none fun rest' hs' => ?_
  obtain ⟨rfl, rfl⟩ := List.cons.inj hs
  exact absurd hs' (h rest' rfl)

theorem match?_only_only {a b c : Char} {s : List Char} (h : ∀ rest, c = a → s ≠ b :: rest) (p : Text.Pattern) :
    (seq (only a) (seq (only b) p)).match? (c :: s) = none := run_only_only h p some

theorem match?_word (c : Char) (s : List Char) :
    wordPattern.match? (c :: s) = if isWordStart c then some (s.dropWhile isWordChar) else none := by
  rw [wordPattern, match?, run_seq, run_char_cons, run_greedy_some]

theorem lookup_marks_of_isBlank {c : Char} (hc : Text.isBlank c = true) : marks.lookup c = none := by
  have h : ∀ n ∈ Text.blankCodes, marks.lookup (Char.ofNat n) = none := by decide
  have hn := h c.toNat (by simpa [Text.isBlank] using hc)
  rwa [Char.ofNat_toNat] at hn

/-- Of the alternatives for runs and marks at most one matches. -/
theorem match?_plain (c : Char) (s : List Char) : plainPattern.match? (c :: s) =
    if Text.isDecimalDigit c then some (s.dropWhile Text.isDecimalDigit)
    else if isWordStart c then some (s.dropWhile isWordChar)
    else if Text.isBlank c then some (s.dropWhile Text.isBlank)
    else (marks.lookup c).map fun _ => s := by
  have hmark : (char fun c => (marks.lookup c).isSome).match? (c :: s) = (marks.lookup c).map fun _ => s := by
    rw [match?, run_char_cons]
    cases marks.lookup c <;> rfl
  rw [plainPattern, match?_either, match?_either, match?_either, match?_many1, match?_word, hmark, match?_many1]
  split
  · rfl
  · split
    · rfl
    · split
      · rename_i hc
        rw [lookup_marks_of_isBlank hc]
        rfl
      · simp

/-- What starts a comment or a string is in no run and no mark. -/
theorem match?_plain_eq_none {c : Char} (hc : c ∈ ['/', '"', '\'']) (s : List Char) :
    plainPattern.match? (c :: s) = none := by
  have h : Text.isDecimalDigit c = false ∧ isWordStart c = false ∧ Text.isBlank c = false ∧ marks.lookup c = none := by
    simp only [List.mem_cons, List.not_mem_nil, or_false] at hc
    obtain rfl | rfl | rfl := hc <;> decide
  obtain ⟨hd, hw, hb, hm⟩ := h
  simp [match?_plain, hd, hw, hb, hm]

/-- The preferred match of the pattern of elements is the element that is scanned. -/
theorem match?_pattern (s : List Char) : pattern.match? s = (scan? s).map Prod.snd := by
  rw [pattern, match?_either, match?_either, match?_either, match?_either, scan?.eq_def]
  split
  · rfl
  · rename_i s
    rw [match?_blockComment, lineCommentPattern, match?_only_only (by simp), escapedStringPattern,
      match?_only (by decide), rawStringPattern, match?_only (by decide), match?_plain_eq_none (by decide)]
    simp [Option.map_map, Function.comp_def]
  · rename_i s
    rw [blockCommentPattern, match?_only_only (by simp), match?_lineComment]
    rfl
  · rename_i s
    rw [blockCommentPattern, match?_only (by decide), lineCommentPattern, match?_only (by decide),
      match?_escapedString, rawStringPattern, match?_only (by decide), match?_plain_eq_none (by decide)]
    simp [Option.map_map, Function.comp_def]
  · rename_i s
    rw [blockCommentPattern, match?_only (by decide), lineCommentPattern, match?_only (by decide),
      escapedStringPattern, match?_only (by decide), match?_rawString, match?_plain_eq_none (by decide)]
    simp [Option.map_map, Function.comp_def]
  · rename_i c s hblock hline hescaped hraw
    rw [blockCommentPattern, match?_only_only hblock, lineCommentPattern, match?_only_only hline,
      escapedStringPattern, match?_only hescaped, rawStringPattern, match?_only hraw, match?_plain]
    simp only [Option.none_or, apply_ite (Option.map Prod.snd), Option.map_some, Option.map_map]
    rfl

/-- A search finds the element that is scanned at the front of a text. -/
theorem find?_of_scan? {s rest : List Char} {e : Element} (h : scan? s = some (e, rest)) :
    pattern.find? s = some ([], e.text, rest) := by
  have hs := eq_text_append_of_scan? h
  have hmatch : pattern.match? s = some rest := by rw [match?_pattern, h]; rfl
  cases s with
  | nil => cases h
  | cons c s =>
    rw [find?, hmatch]
    simp only [hs, List.length_append, Nat.add_sub_cancel, List.take_left']

theorem unmatched_of_scan? {s rest : List Char} {e : Element} (h : scan? s = some (e, rest)) : unmatched s = [] := by
  cases s with
  | nil => rfl
  | cons c s => simp [unmatched, h]

/-- Where no element is scanned, a search skips the text up to the next place where one is, or finds nothing. -/
theorem find?_of_not_scan? {s : List Char} (h : scan? s = none) :
    (pattern.find? s = none ∧ unmatched s = s) ∨ ∃ found, pattern.find? s = some (unmatched s, found) := by
  induction s with
  | nil => exact .inl ⟨rfl, rfl⟩
  | cons c s ih =>
    have hmatch : pattern.match? (c :: s) = none := by rw [match?_pattern, h]; rfl
    rw [find?, hmatch, unmatched, h]
    cases hs : scan? s with
    | none =>
      rcases ih hs with ⟨hnone, hall⟩ | ⟨found, hsome⟩
      · exact .inl ⟨by rw [hnone]; rfl, by rw [hall]; rfl⟩
      · exact .inr ⟨found, by rw [hsome]; rfl⟩
    | some p => exact .inr ⟨_, by rw [find?_of_scan? hs, unmatched_of_scan? hs]; rfl⟩

end Element

/-! ## Places -/

namespace Position

/-- Counting what stands in a piece of text comes to the same place as moving over it. -/
theorem past_eq_advance (p : Position) (part : List Char) : p.past part = p.advance part := by
  have hn : "\n".utf8ByteSize = '\n'.utf8Size := by decide
  induction part generalizing p with
  | nil => simp [past]
  | cons c s ih =>
    rw [advance_cons, ← ih]
    by_cases hs : '\n' ∈ s
    · by_cases hc : c = '\n'
      · subst hc
        simp [past, step, hn, hs, Text.getLast?_pieces_cons hs]
        omega
      · simp [past, step, hs, hc, Text.getLast?_pieces_cons hs]
        omega
    · by_cases hc : c = '\n'
      · subst hc
        simp [past, step, hn, hs, Text.pieces, Text.pieces_of_not_mem hs, List.count_eq_zero.2 hs]
        omega
      · have hc' : '\n' ≠ c := fun h => hc h.symm
        simp [past, step, hs, hc, hc']
        omega

/-- Counting over a whole text comes to the place after a piece that is all of it. -/
theorem finish_eq_past (s : List Char) : finish s = start.past s := by
  rw [past, finish]
  split
  · simp only [start, mk.injEq, and_true]
    omega
  · rename_i h
    simp only [start, Text.pieces_of_not_mem h, List.count_eq_zero.2 h, mk.injEq, List.getLast?_singleton,
      Option.getD_some, true_and]
    omega

/-- The place after a text is the same whether it is counted over the whole text or moved to. -/
theorem finish_eq_advance (s : List Char) : finish s = start.advance s := by
  rw [finish_eq_past, past_eq_advance]

end Position

/-! ## Pieces of text -/

namespace Element

open Text.Pattern

variable {c : Char} {s : List Char} {e : Element}

/-- A text that starts with neither two slashes nor white space is no layout. -/
theorem isLayout_cons (hline : ∀ rest, c = '/' → s ≠ '/' :: rest) (hblank : Text.isBlank c = false) :
    Token.isLayout (c :: s) = false := by
  have hwhole (next : List Char → Option (List Char)) : layoutPattern.run (c :: s) next = none := by
    rw [layoutPattern, run_either, lineCommentPattern, run_only_only hline, many1, run_seq, run_char_cons, hblank]
    rfl
  have hslashes : ['/', '/'].isPrefixOf (c :: s) = false := by
    refine Bool.eq_false_iff.2 fun hp => ?_
    obtain ⟨rest, hr⟩ := List.isPrefixOf_iff_prefix.1 hp
    obtain ⟨rfl, rfl⟩ := List.cons.inj hr.symm
    exact hline rest rfl rfl
  rw [Token.isLayout, isWhole, hwhole, hslashes]
  rfl

theorem isLayout_blanks (hc : Text.isBlank c = true) (hs : ∀ d ∈ s, Text.isBlank d = true) :
    Token.isLayout (c :: s) = true := by
  have hall : ((many1 Text.isBlank).run (c :: s) fun rest => if rest = [] then some rest else none).isSome := by
    rw [many1, run_seq, run_char_cons, if_pos hc]
    exact isSome_run_greedy hs rfl
  rw [Token.isLayout, isWhole, layoutPattern, run_either, Option.isSome_or, hall]
  simp

theorem classify_cons (hc : Plain c) : Token.classify (c :: s) = (Token.plainKind (c :: s), c :: s) := by
  obtain ⟨h₁, h₂, h₃⟩ := hc
  rw [Token.classify]
  all_goals simp_all

theorem lookup_marks_eq_none (hc : Text.isDecimalDigit c = true ∨ isWordStart c = true) : marks.lookup c = none := by
  refine Option.eq_none_iff_forall_ne_some.2 fun kind hk => ?_
  obtain ⟨before, after, hm, _⟩ := List.lookup_eq_some_iff.1 hk
  obtain ⟨_, hd, hw, _⟩ := classes_of_mem_marks (hm ▸ List.mem_append_right before List.mem_cons_self)
  rcases hc with hc | hc
  · rw [hd] at hc
    cases hc
  · rw [hw] at hc
    cases hc

theorem isBlank_eq_false (hc : Text.isDecimalDigit c = true ∨ isWordStart c = true) : Text.isBlank c = false := by
  refine Bool.eq_false_iff.2 fun hb => ?_
  obtain ⟨_, hw, hd⟩ := plain_of_isBlank hb
  rcases hc with hc | hc
  · rw [hd] at hc
    cases hc
  · rw [isWordChar_of_isWordStart hc] at hw
    cases hw

/-- Only words are reserved. -/
theorem wordKind_of_not_wordStart (hc : isWordStart c = false) : wordKind (c :: s) = .identifier := by
  have hkeywords : ∀ k ∈ keywords, k.1.toList.head?.any isWordStart = true := by decide
  rcases wordKind_eq (c :: s) with hk | hk
  · exact hk
  · have hstart := hkeywords _ hk
    rw [String.toList_ofList] at hstart
    exact absurd (show isWordStart c = true from hstart) (by simp [hc])

theorem plainKind_digits (hc : Text.isDecimalDigit c = true) : Token.plainKind (c :: s) = digitsKind (c :: s) := by
  have hw : isWordStart c = false := by
    refine Bool.eq_false_iff.2 fun hw => ?_
    rw [(plain_of_isWordStart hw).2] at hc
    cases hc
  rw [Token.plainKind, lookup_marks_eq_none (.inl hc), wordKind_of_not_wordStart hw]
  rfl

theorem plainKind_word (hc : isWordStart c = true) : Token.plainKind (c :: s) = wordKind (c :: s) := by
  have hd : c.isDigit = false := by
    refine Bool.eq_false_iff.2 fun hd => ?_
    have hdecimal := Text.isDecimalDigit_of_isDigit hd
    rw [(plain_of_isWordStart hc).2] at hdecimal
    cases hdecimal
  rw [Token.plainKind, lookup_marks_eq_none (.inr hc), hd]
  rfl

/-- The text of an element shows whether the element is layout, and if not, what token it is. -/
theorem isLayout_text_and_token? (h : e.Proper) : Token.isLayout e.text = e.isLayout ∧
    e.token? = if e.isLayout then none else some (Token.classify e.text) := by
  cases e with
  | blockComment body =>
    refine ⟨isLayout_cons (by simp) (by decide), ?_⟩
    simp [isLayout, token?, text, Token.classify]
  | lineComment body =>
    refine ⟨?_, rfl⟩
    simp [text, Token.isLayout, isLayout]
  | escapedString body =>
    refine ⟨isLayout_cons (by simp) (by decide), ?_⟩
    simp [isLayout, token?, text, Token.classify]
  | rawString body =>
    refine ⟨isLayout_cons (by simp) (by decide), ?_⟩
    simp [isLayout, token?, text, Token.classify]
  | digits w =>
    obtain ⟨hne, hw⟩ := h
    obtain ⟨c, w, rfl⟩ := List.exists_cons_of_ne_nil hne
    have hc := hw c List.mem_cons_self
    have hp := plain_of_isDecimalDigit hc
    refine ⟨isLayout_cons (fun _ he => absurd he hp.1) (isBlank_eq_false (.inl hc)), ?_⟩
    simp [isLayout, token?, text, classify_cons hp, plainKind_digits hc]
  | word w =>
    obtain ⟨hstart, hw⟩ := h
    cases w with
    | nil => cases hstart
    | cons c w =>
      have hc : isWordStart c = true := hstart
      obtain ⟨hp, _⟩ := plain_of_isWordStart hc
      refine ⟨isLayout_cons (fun _ he => absurd he hp.1) (isBlank_eq_false (.inr hc)), ?_⟩
      simp [isLayout, token?, text, classify_cons hp, plainKind_word hc]
  | mark c kind =>
    obtain ⟨hp, _, _, hb, hl⟩ := classes_of_mem_marks h
    refine ⟨isLayout_cons (fun _ he => absurd he hp.1) hb, ?_⟩
    simp [isLayout, token?, text, classify_cons hp, Token.plainKind, hl]
  | blanks w =>
    obtain ⟨hne, hw⟩ := h
    obtain ⟨c, w, rfl⟩ := List.exists_cons_of_ne_nil hne
    obtain ⟨hc, hw⟩ := List.forall_mem_cons.1 hw
    exact ⟨isLayout_blanks hc hw, rfl⟩

end Element

/-! ## Tokens -/

namespace Token

/-- The tokens among elements that stand side by side from a place on. -/
def ofElements (file : Nat) (p : Position) : List Element → List Token
  | [] => []
  | e :: es =>
    let q := p.advance e.text
    match e.token? with
    | none => ofElements file q es
    | some (kind, lexeme) => ⟨kind, String.ofList lexeme, ⟨file, p, q⟩⟩ :: ofElements file q es

/-- The place after elements that stand side by side from a place on. -/
def afterElements (p : Position) : List Element → Position
  | [] => p
  | e :: es => afterElements (p.advance e.text) es

theorem afterElements_eq_advance (p : Position) : ∀ es : List Element,
    afterElements p es = p.advance (es.flatMap Element.text)
  | [] => rfl
  | e :: es => by
    rw [afterElements, afterElements_eq_advance _ es, List.flatMap_cons, Position.advance_append]

/-- The matches in a text are its elements, up to the place where no element starts. -/
theorem readUpTo_eq (file : Nat) {n : Nat} {s : List Char} (p : Position) (hn : s.length < n) :
    readUpTo file n p s = match Element.split s with
      | (elements, []) => .ok (ofElements file p elements)
      | (elements, stuck) => .error (unexpectedText file (afterElements p elements) (Element.unmatched stuck)) := by
  induction n generalizing s p with
  | zero => cases hn
  | succ n ih =>
    rw [readUpTo, Element.split_eq]
    cases hs : Element.scan? s with
    | none =>
      cases s with
      | nil => rfl
      | cons c s =>
        have hskipped : Element.unmatched (c :: s) ≠ [] := by simp [Element.unmatched, hs]
        rcases Element.find?_of_not_scan? hs with ⟨hnone, hall⟩ | ⟨found, hfound⟩
        · rw [hnone]
          simp [hall, afterElements]
        · rw [hfound]
          simp [hskipped, afterElements]
    | some found =>
      obtain ⟨e, rest⟩ := found
      have hrest := Element.length_lt_of_scan? hs
      obtain ⟨hlayout, htoken⟩ := Element.isLayout_text_and_token? (Element.proper_and_stops_of_scan? hs).1
      have hread := ih (p.advance e.text) (show rest.length < n by omega)
      simp only [Element.find?_of_scan? hs, Position.past_eq_advance, hread]
      cases hsplit : Element.split rest with
      | mk es stuck =>
        cases stuck with
        | cons c stuck => rfl
        | nil =>
          cases hl : e.isLayout <;> simp [hlayout, htoken, hl, ofElements, bind, Except.bind, pure, Except.pure]

/-- The tokens of a text are those of the elements that it is cut into. If it is not cut up to its end, the problem is
the text up to the next place where an element starts. -/
theorem ofText_eq (text : String) (file : Nat) : ofText text file = match Element.split text.toList with
    | (elements, []) => .ok (ofElements file Position.start elements)
    | (elements, stuck) =>
      .error (unexpectedText file (afterElements Position.start elements) (Element.unmatched stuck)) :=
  readUpTo_eq file Position.start (Nat.lt_succ_self _)

/-- Reading succeeds if the elements make up the whole text. -/
theorem ofText_eq_ok_iff {text : String} {file : Nat} {tokens : List Token} :
    ofText text file = .ok tokens ↔ ∃ elements, Element.split text.toList = (elements, []) ∧
      ofElements file Position.start elements = tokens := by
  rw [ofText_eq]
  split
  · rename_i elements h
    simp [h]
  · rename_i elements stuck hne h
    simp only [reduceCtorEq, h, Prod.mk.injEq, false_iff, not_exists, not_and, and_imp]
    intro _ _ hs
    exact absurd hs hne

theorem content_ofElements (file : Nat) : ∀ (p : Position) (es : List Element),
    (ofElements file p es).map content = es.filterMap Element.content?
  | _, [] => rfl
  | p, e :: es => by
    rw [ofElements, List.filterMap_cons, Element.content?]
    cases e.token? with
    | none => exact content_ofElements file _ es
    | some t => exact congrArg _ (content_ofElements file _ es)

/-- A text that is cut into tokens with given contents is read as such tokens. -/
theorem exists_of_lexes {text : String} {cs : List (TokenKind × String)} (h : Element.Lexes text.toList cs)
    (file : Nat) : ∃ ts, ofText text file = .ok ts ∧ ts.map content = cs := by
  obtain ⟨es, hes, rfl⟩ := h
  exact ⟨_, ofText_eq_ok_iff.2 ⟨es, hes, rfl⟩, content_ofElements file _ es⟩

end Token

end SchemaLang
