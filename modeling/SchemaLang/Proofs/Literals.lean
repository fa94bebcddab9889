import SchemaLang.Proofs.Positions

/-!
# Strings in double quotes

Every text can be written as a string in double quotes, and every such string is read pair by pair.

* `Element.Reads` says what is read between double quotes. It has no rule for a backslash that nothing follows. Every
  body of a string is read by it (`Element.reads_unescape`).
* `Element.Writes` says how a text may be written between double quotes, for example with a backslash before every
  backslash and every double quote (`Element.escaped`). What is written is the body of a string, and the text is read
  from it (`Element.Writes.escaping`, `Element.Writes.reads`).
* A string in front of a text is one token in front of the tokens of the text (`Element.Lexes.string`,
  `Token.readUpTo_of_scan?`).
* Main result: `Token.strings_ofText`.
-/

namespace SchemaLang

namespace Element

variable {s body : List Char}

/-- The letters that stand for another character behind a backslash. -/
def letters : List (Char × Char) := [('n', '\n'), ('t', '\t'), ('r', '\r')]

theorem mem_letters_iff {c d : Char} :
    (c, d) ∈ letters ↔ c = 'n' ∧ d = '\n' ∨ c = 't' ∧ d = '\t' ∨ c = 'r' ∧ d = '\r' := by
  simp [letters]

theorem unescapeChar_of_mem_letters {c d : Char} (h : (c, d) ∈ letters) : unescapeChar c = d := by
  rcases mem_letters_iff.1 h with ⟨rfl, rfl⟩ | ⟨rfl, rfl⟩ | ⟨rfl, rfl⟩ <;> rfl

theorem unescapeChar_eq_self {c : Char} (h : ∀ d, (c, d) ∉ letters) : unescapeChar c = c := by
  unfold unescapeChar
  split
  · exact absurd (by decide) (h '\n')
  · exact absurd (by decide) (h '\t')
  · exact absurd (by decide) (h '\r')
  · rfl

/-! ## Reading pair by pair -/

/-- What is read between double quotes: a letter behind a backslash, another character behind a backslash, or a
character alone. -/
inductive Reads : List Char → List Char → Prop
  | nil : Reads [] []
  | letter {c d : Char} {body s : List Char} (mem : (c, d) ∈ letters) (rest : Reads body s) :
      Reads ('\\' :: c :: body) (d :: s)
  | paired {c : Char} {body s : List Char} (not_mem : ∀ d, (c, d) ∉ letters) (rest : Reads body s) :
      Reads ('\\' :: c :: body) (c :: s)
  | alone {c : Char} {body s : List Char} (ne_backslash : c ≠ '\\') (rest : Reads body s) : Reads (c :: body) (c :: s)

theorem Reads.unescape_eq (h : Reads body s) : unescape body = s := by
  induction h with
  | nil => rfl
  | letter hc _ ih => rw [unescape, unescapeChar_of_mem_letters hc, ih]
  | paired hc _ ih => rw [unescape, unescapeChar_eq_self hc, ih]
  | alone hc _ ih =>
    rw [unescape, ih]
    · exact fun he _ => hc he
    · exact fun _ _ he => absurd he hc

/-- A pair of a backslash and a character is read as what it stands for. -/
theorem Reads.pair (c : Char) (h : Reads body s) : Reads ('\\' :: c :: body) (unescapeChar c :: s) := by
  by_cases hc : ∃ d, (c, d) ∈ letters
  · obtain ⟨d, hd⟩ := hc
    rw [unescapeChar_of_mem_letters hd]
    exact .letter hd h
  · have hc := not_exists.1 hc
    rw [unescapeChar_eq_self hc]
    exact .paired hc h

/-- The body of a string is read pair by pair. -/
theorem reads_unescape (h : Escaping body) : Reads body (unescape body) := by
  fun_induction Escaping body with
  | case1 => exact .nil
  | case2 c body ih => exact (ih h.2).pair c
  | case3 c body _ ih =>
    rw [unescape]
    · exact .alone h.1 (ih h.2.2)
    · exact fun he _ => h.1 he
    · exact fun _ _ he => absurd he h.1

/-- Reading the body of a string never comes to a backslash that nothing follows. -/
theorem Reads.ne_append_backslash {front : List Char} (h : Reads front s) (hbody : Escaping body) :
    body ≠ front ++ ['\\'] := by
  rintro rfl
  -- What is read so far ends between two pairs, so the backslash would be the first of a pair.
  induction h with
  | nil => exact hbody.1 rfl
  | letter _ _ ih | paired _ _ ih => exact ih hbody.2
  | @alone c front _ hc _ ih =>
    rw [List.cons_append, Escaping] at hbody
    · exact ih hbody.2.2
    · exact fun _ _ he => absurd he hc

/-! ## Writing -/

/-- How a text is written between double quotes: with a backslash before every backslash and every double quote. A
character that has a letter is written as it is, or as the letter behind a backslash. -/
inductive Writes : List Char → List Char → Prop
  | nil : Writes [] []
  | letter {c d : Char} {s body : List Char} (mem : (c, d) ∈ letters) (rest : Writes s body) :
      Writes (d :: s) ('\\' :: c :: body)
  | marked {c : Char} {s body : List Char} (mark : c = '\\' ∨ c = '"') (rest : Writes s body) :
      Writes (c :: s) ('\\' :: c :: body)
  | alone {c : Char} {s body : List Char} (not_mark : ¬ (c = '\\' ∨ c = '"')) (rest : Writes s body) :
      Writes (c :: s) (c :: body)

/-- A text with a backslash before every backslash and every double quote. -/
def escaped (s : List Char) : List Char := s.flatMap fun c => if c = '\\' ∨ c = '"' then ['\\', c] else [c]

/-- Every text can be written. -/
theorem writes_escaped (s : List Char) : Writes s (escaped s) := by
  induction s with
  | nil => exact .nil
  | cons c s ih =>
    rw [escaped] at ih ⊢
    by_cases hc : c = '\\' ∨ c = '"'
    · rw [List.flatMap_cons, if_pos hc]
      exact .marked hc ih
    · rw [List.flatMap_cons, if_neg hc]
      exact .alone hc ih

/-- What is written is the body of a string. -/
theorem Writes.escaping (h : Writes s body) : Escaping body := by
  induction h with
  | nil => trivial
  | letter hc _ ih =>
    refine ⟨?_, ih⟩
    rintro rfl
    simp [mem_letters_iff] at hc
  | marked hc _ ih =>
    refine ⟨?_, ih⟩
    rintro rfl
    exact absurd hc (by decide)
  | alone hc _ ih =>
    obtain ⟨hbackslash, hquote⟩ := not_or.1 hc
    rw [Escaping]
    · exact ⟨hbackslash, hquote, ih⟩
    · exact fun _ _ he => absurd he hbackslash

/-- What is written is read again. -/
theorem Writes.reads (h : Writes s body) : Reads body s := by
  induction h with
  | nil => exact .nil
  | letter hc _ ih => exact .letter hc ih
  | marked hc _ ih =>
    refine .paired (fun d hd => ?_) ih
    rcases hc with rfl | rfl <;> simp [mem_letters_iff] at hd
  | alone hc _ ih => exact .alone (not_or.1 hc).1 ih

/-! ## Strings among elements -/

variable {e : Element}

/-- The only element that is a token of a double-quoted string is such a string. -/
theorem Proper.exists_body {c : TokenKind × String} (h : e.Proper) (hc : e.content? = some c)
    (hk : c.1 = .escapedString) : ∃ body, e = .escapedString body ∧ c.2 = String.ofList (unescape body) := by
  have hkeywords : ∀ k ∈ keywords, k.2 ≠ .escapedString := by decide
  have hmarks : ∀ m ∈ marks, m.2 ≠ .escapedString := by decide
  cases e with
  | lineComment | blanks => cases hc
  | blockComment | rawString =>
    obtain rfl := Option.some.inj hc
    cases hk
  | escapedString body =>
    obtain rfl := Option.some.inj hc
    exact ⟨body, rfl, rfl⟩
  | digits w =>
    obtain rfl := Option.some.inj hc
    rcases digitsKind_eq w with hd | hd <;> cases hd.symm.trans hk
  | word w =>
    obtain rfl := Option.some.inj hc
    rcases wordKind_eq w with hw | hw
    · cases hw.symm.trans hk
    · exact absurd hk (hkeywords _ hw)
  | mark char kind =>
    obtain rfl := Option.some.inj hc
    exact absurd hk (hmarks _ h)

/-- A match that a search finds at once is the text of the element that starts there. -/
theorem exists_scan?_of_find? {part rest : List Char} (h : pattern.find? s = some ([], part, rest)) :
    ∃ e, scan? s = some (e, rest) ∧ e.text = part := by
  cases hs : scan? s with
  | some found =>
    obtain ⟨e, r⟩ := found
    obtain ⟨rfl, rfl⟩ : e.text = part ∧ r = rest := by simpa [find?_of_scan? hs] using h
    exact ⟨e, rfl, rfl⟩
  | none =>
    cases s with
    | nil => cases h
    | cons c s =>
      have hskipped : unmatched (c :: s) ≠ [] := by simp [unmatched, hs]
      rcases find?_of_not_scan? hs with ⟨hnone, _⟩ | ⟨found, hfound⟩
      · cases hnone.symm.trans h
      · have hfind := hfound.symm.trans h
        exact absurd (Prod.mk.inj (Option.some.inj hfind)).1 hskipped

theorem scan?_of_writes (h : Writes s body) (rest : List Char) :
    scan? ('"' :: (body ++ '"' :: rest)) = some (.escapedString body, rest) :=
  scan?_eq_some_iff.2 ⟨by simp [text], h.escaping, fun _ _ => rfl⟩

theorem token?_of_writes (h : Writes s body) : (escapedString body).token? = some (.escapedString, s) := by
  rw [token?, h.reads.unescape_eq]

/-- A string that is written in front of a text adds its own token. -/
theorem Lexes.string {cs : List (TokenKind × String)} {rest : List Char} (h : Lexes rest cs) (hw : Writes s body) :
    Lexes ('"' :: (body ++ '"' :: rest)) ((.escapedString, String.ofList s) :: cs) :=
  h.scan (scan?_of_writes hw rest) (by rw [content?, token?_of_writes hw]; rfl)

end Element

/-! ## Strings as tokens -/

namespace Token

open Element

/-- A token in front of a text comes before the tokens of the text, or reading fails with the problem of the text. -/
theorem readUpTo_of_scan? {s rest : List Char} {e : Element} {kind : TokenKind} {lexeme : List Char} {n : Nat}
    (h : scan? s = some (e, rest)) (ht : e.token? = some (kind, lexeme)) (file : Nat) (p : Position)
    (hn : s.length < n) : readUpTo file n p s =
      (readUpTo file (rest.length + 1) (p.advance e.text) rest).map
        (⟨kind, String.ofList lexeme, ⟨file, p, p.advance e.text⟩⟩ :: ·) := by
  rw [readUpTo_eq file p hn, readUpTo_eq file _ (Nat.lt_succ_self _), split_eq, h]
  cases hsplit : split rest with
  | mk es stuck =>
    simp only [hsplit]
    cases stuck with
    | cons c stuck => rfl
    | nil => simp [ofElements, ht, Except.map]

/-- Every text can be written as a string in double quotes. In front of any text, the string is one token with the text
that was written, from quote to quote; then come the tokens of the text behind it, or its problem. The lexeme of a
double-quoted string of a text is what is read between its quotes pair by pair. No match of the search, whether the
whole text is read or not, has a backslash that nothing follows where a pair is read. -/
theorem strings_ofText (file : Nat) :
    (∀ s, (∃ body, Writes s body) ∧ ∀ body rest text, Writes s body → text.toList = '"' :: (body ++ '"' :: rest) →
      ofText text file = (readUpTo file (rest.length + 1) (.behind ('"' :: (body ++ ['"']))) rest).map
        (⟨.escapedString, String.ofList s, ⟨file, .start, .behind ('"' :: (body ++ ['"']))⟩⟩ :: ·)) ∧
      (∀ text tokens t, ofText text file = .ok tokens → t ∈ tokens → t.kind = .escapedString →
        ∃ body, t.span.Covers text.toList ('"' :: (body ++ ['"'])) ∧ Reads body t.lexeme.toList) ∧
      ∀ s part rest, pattern.find? s = some ([], '"' :: part, rest) →
        ∃ body, part = body ++ ['"'] ∧ classify ('"' :: part) = (.escapedString, unescape body) ∧
          Reads body (unescape body) ∧ ∀ front read, Reads front read → body ≠ front ++ ['\\'] := by
  refine ⟨fun s => ⟨⟨_, writes_escaped s⟩, fun body rest text hw htext => ?_⟩,
    fun text tokens t hok ht hkind => ?_, fun s part rest hfind => ?_⟩
  · have hscan : scan? text.toList = some (.escapedString body, rest) := by rw [htext, scan?_of_writes hw]
    rw [ofText, readUpTo_of_scan? hscan (token?_of_writes hw) file .start (Nat.lt_succ_self _), Position.advance_start]
    rfl
  · obtain ⟨pre, e, post, hsplit, he, hspan⟩ := exists_element hok ht
    obtain ⟨htext, hadjacent, _⟩ := split_eq_iff.1 hsplit
    have hproper : e.Proper := hadjacent.proper e (by simp)
    obtain ⟨body, rfl, hlexeme⟩ := hproper.exists_body he hkind
    refine ⟨body, ⟨pre.flatMap Element.text, post.flatMap Element.text, ?_, ?_, ?_⟩, ?_⟩
    · simpa [Element.text] using htext
    · rw [hspan]
    · rw [hspan]
      simp [Element.text]
    · rw [show t.lexeme = _ from hlexeme, String.toList_ofList]
      exact reads_unescape hproper
  · -- Nothing is skipped, so the match is what is scanned at its front.
    obtain ⟨e, hscan, htext⟩ := exists_scan?_of_find? hfind
    have hproper := (proper_and_stops_of_scan? hscan).1
    obtain rfl := eq_text_append_of_scan? hscan
    rw [htext, List.cons_append, scan?] at hscan
    obtain ⟨⟨body, r⟩, -, hbody⟩ := Option.map_eq_some_iff.1 hscan
    obtain ⟨rfl, rfl⟩ := Prod.mk.inj hbody
    obtain rfl : body ++ ['"'] = part := (List.cons.inj htext).2
    refine ⟨body, rfl, ?_, reads_unescape hproper, fun front read hread => hread.ne_append_backslash hproper⟩
    rw [classify, List.dropLast_concat]

/-- A string with a line feed and a carriage return, of which only the first is written with a letter. -/
theorem strings_ofText_marks :
    let s := ['\n', '\\', '"', '\r', 'n']
    let body := ['\\', 'n', '\\', '\\', '\\', '"', '\r', 'n']
    let text := String.ofList ('"' :: (body ++ ['"', ' ', 'x']))
    Writes s body ∧ (∀ front read, Reads front read → body ≠ front ++ ['\\']) ∧
      ∃ t following, ofText text 7 = .ok (t :: following) ∧ t.content = (.escapedString, String.ofList s) ∧
        ∃ body, t.span.Covers text.toList ('"' :: (body ++ ['"'])) ∧ Reads body t.lexeme.toList := by
  intro s body text
  obtain ⟨hwritten, hread, hmatch⟩ := strings_ofText 7
  have hw : Writes s body :=
    .letter (by decide) (.marked (.inl rfl) (.marked (.inr rfl) (.alone (by decide) (.alone (by decide) .nil))))
  have hfind : pattern.find? text.toList = some ([], '"' :: (body ++ ['"']), [' ', 'x']) := by decide +kernel
  have htext : text.toList = '"' :: (body ++ ['"', ' ', 'x']) := String.toList_ofList
  obtain ⟨following, hrest⟩ : ∃ following, readUpTo 7 3 (.behind ('"' :: (body ++ ['"']))) [' ', 'x'] = .ok following :=
    exists_of_isOk (by decide +kernel)
  have hok := (hwritten s).2 body [' ', 'x'] text hw htext
  rw [show [' ', 'x'].length + 1 = 3 from rfl, hrest] at hok
  refine ⟨hw, ?_, _, following, hok, rfl, hread text _ _ hok List.mem_cons_self rfl⟩
  obtain ⟨_, hbody, -, -, hlone⟩ := hmatch _ _ _ hfind
  rwa [← List.append_cancel_right hbody] at hlone

end Token

end SchemaLang
