import SchemaLang.Text.Blank
import SchemaLang.Text.DecimalDigit
import SchemaLang.Token.Basic

/-!
# Lexical elements

The pieces that schema text is made of, and the cutting of text into them.

* `Element.scan?` finds the one element that starts a text, if there is one. It loses nothing: the text is the element's
  text followed by the rest, and no element is empty (`Element.text_of_scan?`).
* `Element.split` scans a text until it ends or no element starts, and gives the elements and what is left
  (`Element.split_eq` is its equation).
* `Element.token?` says what token an element is; blanks and line comments are none.

Texts are read by a search for matches of a pattern, which stops at the same places and finds the same elements.
-/

namespace SchemaLang

/-- A piece of schema text. -/
inductive Element where
  /-- The text between the two marks of a block comment. -/
  | blockComment (body : List Char)
  /-- The text after two slashes, up to the end of the line. -/
  | lineComment (body : List Char)
  /-- The text between two double quotes, escapes not yet read. -/
  | escapedString (body : List Char)
  /-- The text between two single quotes. -/
  | rawString (body : List Char)
  /-- A run of decimal digits. -/
  | digits (text : List Char)
  /-- A run of ASCII letters, digits and underscores that starts with no digit. -/
  | word (text : List Char)
  /-- A punctuation mark. -/
  | mark (char : Char) (kind : TokenKind)
  /-- A run of white space. -/
  | blanks (text : List Char)

namespace Element

/-- The source text of an element. -/
def text : Element → List Char
  | blockComment body => '/' :: '*' :: (body ++ ['*', '/'])
  | lineComment body => '/' :: '/' :: body
  | escapedString body => '"' :: (body ++ ['"'])
  | rawString body => '\'' :: (body ++ ['\''])
  | digits text => text
  | word text => text
  | mark char _ => [char]
  | blanks text => text

/-! ## Scanning one element -/

/-- The body of a block comment and the text after its closing mark. -/
def scanBlock? : List Char → Option (List Char × List Char)
  | [] => none
  | '*' :: '/' :: rest => some ([], rest)
  | c :: s => (scanBlock? s).map fun (body, rest) => (c :: body, rest)

/-- The body of a double-quoted string and the text after its closing quote. A backslash takes the next character with
it, which is no line feed. -/
def scanEscaped? : List Char → Option (List Char × List Char)
  | [] => none
  | '"' :: rest => some ([], rest)
  | '\\' :: c :: s =>
    if c = '\n' then none else (scanEscaped? s).map fun (body, rest) => ('\\' :: c :: body, rest)
  | c :: s => if c = '\\' then none else (scanEscaped? s).map fun (body, rest) => (c :: body, rest)

/-- The body of a single-quoted string and the text after its closing quote. -/
def scanRaw? : List Char → Option (List Char × List Char)
  | [] => none
  | '\'' :: rest => some ([], rest)
  | c :: s => (scanRaw? s).map fun (body, rest) => (c :: body, rest)

/-- The characters that start a word. -/
def isWordStart (c : Char) : Bool := c.isAlpha || c = '_'

/-- The characters of a word. -/
def isWordChar (c : Char) : Bool := c.isAlphanum || c = '_'

/-- The punctuation marks with their kinds. -/
def marks : List (Char × TokenKind) :=
  [('\x7b', .openBrace), ('\x7d', .closeBrace), ('[', .openBracket), (']', .closeBracket),
   ('(', .openParenthesis), (')', .closeParenthesis), (';', .semicolon), ('=', .equals), (',', .comma),
   ('>', .greater), ('-', .hyphen)]

/-- The element that starts a text, and the rest of the text. -/
def scan? : List Char → Option (Element × List Char)
  | [] => none
  | '/' :: '*' :: s => (scanBlock? s).map fun (body, rest) => (blockComment body, rest)
  | '/' :: '/' :: s => some (lineComment (s.takeWhile (· ≠ '\n')), s.dropWhile (· ≠ '\n'))
  | '"' :: s => (scanEscaped? s).map fun (body, rest) => (escapedString body, rest)
  | '\'' :: s => (scanRaw? s).map fun (body, rest) => (rawString body, rest)
  | c :: s =>
    if Text.isDecimalDigit c then some (digits (c :: s.takeWhile Text.isDecimalDigit), s.dropWhile Text.isDecimalDigit)
    else if isWordStart c then some (word (c :: s.takeWhile isWordChar), s.dropWhile isWordChar)
    else if Text.isBlank c then some (blanks (c :: s.takeWhile Text.isBlank), s.dropWhile Text.isBlank)
    else (marks.lookup c).map fun kind => (mark c kind, s)

theorem eq_append_of_scanBlock? {s body rest : List Char} (h : scanBlock? s = some (body, rest)) :
    s = body ++ '*' :: '/' :: rest := by
  fun_induction scanBlock? s generalizing body rest with
  | case1 => simp at h
  | case2 r => simp_all
  | case3 c s _ ih =>
    obtain ⟨⟨b, r⟩, hs, hb⟩ := Option.map_eq_some_iff.1 h
    obtain ⟨rfl, rfl⟩ := Prod.mk.inj hb
    rw [ih hs]; rfl

theorem eq_append_of_scanEscaped? {s body rest : List Char} (h : scanEscaped? s = some (body, rest)) :
    s = body ++ '"' :: rest := by
  fun_induction scanEscaped? s generalizing body rest with
  | case1 => simp at h
  | case2 r => simp_all
  | case3 => simp at h
  | case4 c s _ ih =>
    obtain ⟨⟨b, r⟩, hs, hb⟩ := Option.map_eq_some_iff.1 h
    obtain ⟨rfl, rfl⟩ := Prod.mk.inj hb
    rw [ih hs]; rfl
  | case5 => simp at h
  | case6 c s _ _ _ ih =>
    obtain ⟨⟨b, r⟩, hs, hb⟩ := Option.map_eq_some_iff.1 h
    obtain ⟨rfl, rfl⟩ := Prod.mk.inj hb
    rw [ih hs]; rfl

theorem eq_append_of_scanRaw? {s body rest : List Char} (h : scanRaw? s = some (body, rest)) :
    s = body ++ '\'' :: rest := by
  fun_induction scanRaw? s generalizing body rest with
  | case1 => simp at h
  | case2 r => simp_all
  | case3 c s _ ih =>
    obtain ⟨⟨b, r⟩, hs, hb⟩ := Option.map_eq_some_iff.1 h
    obtain ⟨rfl, rfl⟩ := Prod.mk.inj hb
    rw [ih hs]; rfl

/-- Scanning takes the text of an element from the front of a text, and that is at least one character. -/
theorem text_of_scan? {s rest : List Char} {e : Element} (h : scan? s = some (e, rest)) :
    s = e.text ++ rest ∧ e.text ≠ [] := by
  unfold scan? at h
  split at h
  · cases h
  · obtain ⟨⟨b, r⟩, hs, hb⟩ := Option.map_eq_some_iff.1 h
    obtain ⟨rfl, rfl⟩ := Prod.mk.inj hb
    simp [text, eq_append_of_scanBlock? hs]
  · obtain ⟨rfl, rfl⟩ := Prod.mk.inj (Option.some.inj h)
    simp [text]
  · obtain ⟨⟨b, r⟩, hs, hb⟩ := Option.map_eq_some_iff.1 h
    obtain ⟨rfl, rfl⟩ := Prod.mk.inj hb
    simp [text, eq_append_of_scanEscaped? hs]
  · obtain ⟨⟨b, r⟩, hs, hb⟩ := Option.map_eq_some_iff.1 h
    obtain ⟨rfl, rfl⟩ := Prod.mk.inj hb
    simp [text, eq_append_of_scanRaw? hs]
  · split at h
    · obtain ⟨rfl, rfl⟩ := Prod.mk.inj (Option.some.inj h)
      simp [text]
    · split at h
      · obtain ⟨rfl, rfl⟩ := Prod.mk.inj (Option.some.inj h)
        simp [text]
      · split at h
        · obtain ⟨rfl, rfl⟩ := Prod.mk.inj (Option.some.inj h)
          simp [text]
        · obtain ⟨k, _, hb⟩ := Option.map_eq_some_iff.1 h
          obtain ⟨rfl, rfl⟩ := Prod.mk.inj hb
          simp [text]

/-- Scanning loses no character. -/
theorem eq_text_append_of_scan? {s rest : List Char} {e : Element} (h : scan? s = some (e, rest)) :
    s = e.text ++ rest := (text_of_scan? h).1

/-- What follows a scanned element is shorter than the whole. -/
theorem length_lt_of_scan? {s rest : List Char} {e : Element} (h : scan? s = some (e, rest)) :
    rest.length < s.length := by
  have hs := eq_text_append_of_scan? h
  have he := List.length_pos_iff.2 (text_of_scan? h).2
  rw [hs, List.length_append]
  omega

/-! ## Cutting a text into elements -/

/-- At most `n` elements from the front of a text, and what follows them. -/
def splitUpTo : Nat → List Char → List Element × List Char
  | 0, s => ([], s)
  | n + 1, s =>
    match scan? s with
    | none => ([], s)
    | some (e, rest) =>
      match splitUpTo n rest with
      | (elements, stuck) => (e :: elements, stuck)

/-- The elements of a text in order, and the text from the first place on where no element starts. -/
def split (s : List Char) : List Element × List Char := splitUpTo s.length s

/-- Two bounds that are no less than the length of the text give the same elements. -/
theorem splitUpTo_congr : ∀ {n m : Nat} {s : List Char}, s.length ≤ n → s.length ≤ m →
    splitUpTo n s = splitUpTo m s
  | 0, 0, _, _, _ => rfl
  | 0, m + 1, [], _, _ => rfl
  | n + 1, 0, [], _, _ => rfl
  | n + 1, m + 1, s, hn, hm => by
    rw [splitUpTo, splitUpTo]
    cases he : scan? s with
    | none => rfl
    | some p =>
      have hl := length_lt_of_scan? he
      simp only [splitUpTo_congr (n := n) (m := m) (s := p.2) (by omega) (by omega)]

/-- A bound that is no less than the length of the text is no bound. -/
theorem splitUpTo_eq_split {n : Nat} {s : List Char} (h : s.length ≤ n) : splitUpTo n s = split s :=
  splitUpTo_congr h (Nat.le_refl _)

/-- The first element is scanned, and the rest is split in the same way. -/
theorem split_eq (s : List Char) :
    split s = match scan? s with
      | none => ([], s)
      | some (e, rest) => (e :: (split rest).1, (split rest).2) := by
  rw [← splitUpTo_eq_split (Nat.le_succ s.length), splitUpTo]
  cases he : scan? s with
  | none => rfl
  | some p =>
    obtain ⟨e, rest⟩ := p
    simp only [splitUpTo_eq_split (Nat.le_of_lt (length_lt_of_scan? he))]

/-- The front of a text up to the first place where an element starts. -/
def unmatched : List Char → List Char
  | [] => []
  | c :: s => if (scan? (c :: s)).isSome then [] else c :: unmatched s

/-! ## Elements as tokens -/

/-- The character that a backslash and a character stand for. -/
def unescapeChar : Char → Char
  | 'n' => '\n'
  | 't' => '\t'
  | 'r' => '\r'
  | c => c

/-- The text that the body of a double-quoted string stands for. A backslash with nothing after it would stand for
itself. -/
def unescape : List Char → List Char
  | [] => []
  | ['\\'] => ['\\']
  | '\\' :: c :: s => unescapeChar c :: unescape s
  | c :: s => c :: unescape s

/-- The kind of a word: a reserved word has its own. -/
def wordKind (word : List Char) : TokenKind := (keyword? (String.ofList word)).getD .identifier

/-- The kind of a run of digits: it is a number if its first digit is an ASCII digit. -/
def digitsKind : List Char → TokenKind
  | d :: _ => if d.isDigit then .number else .identifier
  | [] => .identifier

/-- The kind and the lexeme of an element that is a token. -/
def token? : Element → Option (TokenKind × List Char)
  | blockComment body => some (.blockComment, Text.trim body)
  | lineComment _ => none
  | escapedString body => some (.escapedString, unescape body)
  | rawString body => some (.rawString, body)
  | digits text => some (digitsKind text, text)
  | word text => some (wordKind text, text)
  | mark char kind => some (kind, [char])
  | blanks _ => none

end Element

end SchemaLang
