import SchemaLang.Token.Element

/-!
# Cutting written text

What text is cut into which tokens, word by word from the end.

* `Token.content` is what a token says apart from its place, and `Element.Lexes s cs` that a text is cut into tokens
  with these contents.
* White space in front of a text adds no token (`Element.Lexes.blanks`); a mark, a word, a number or a comment adds its
  own (`Element.Lexes.mark`, `Element.Lexes.word`, ...). A word or a number has to end there (`Element.Ends`).
-/

namespace SchemaLang

/-- What a token says, apart from its place. -/
def Token.content (t : Token) : TokenKind × String := (t.kind, t.lexeme)

namespace Element

/-- What an element says, if it is a token. -/
def content? (e : Element) : Option (TokenKind × String) := e.token?.map fun t => (t.1, String.ofList t.2)

/-- A text that is cut into tokens with the given contents. -/
def Lexes (s : List Char) (cs : List (TokenKind × String)) : Prop :=
  ∃ es, split s = (es, []) ∧ es.filterMap content? = cs

/-- A text that does not go on with a character of a word or a number. -/
def Ends (s : List Char) : Prop := ∀ c ∈ s.head?, isWordChar c = false ∧ Text.isDecimalDigit c = false

variable {s rest : List Char} {cs : List (TokenKind × String)}

theorem Lexes.nil : Lexes [] [] := ⟨[], rfl, rfl⟩

/-- An element in front adds its content. -/
theorem lexes_iff_of_scan? {e : Element} (hs : scan? s = some (e, rest)) :
    Lexes s cs ↔ ∃ ds, Lexes rest ds ∧ cs = e.content?.toList ++ ds := by
  have hsplit : split s = (e :: (split rest).1, (split rest).2) := by rw [split_eq, hs]
  have hcontent (es : List Element) : (e :: es).filterMap content? = e.content?.toList ++ es.filterMap content? := by
    cases he : e.content? <;> simp [he]
  constructor
  · rintro ⟨es, hes, rfl⟩
    rw [hsplit, Prod.mk.injEq] at hes
    obtain ⟨rfl, hn⟩ := hes
    exact ⟨_, ⟨(split rest).1, by rw [← hn], rfl⟩, hcontent _⟩
  · rintro ⟨ds, ⟨es, hes, rfl⟩, rfl⟩
    exact ⟨e :: es, by rw [hsplit, hes], hcontent es⟩

theorem Lexes.scan {e : Element} {c : TokenKind × String} (h : Lexes rest cs) (hs : scan? s = some (e, rest))
    (he : e.content? = some c) : Lexes s (c :: cs) :=
  (lexes_iff_of_scan? hs).2 ⟨cs, h, by rw [he]; rfl⟩

theorem ends_nil : Ends [] := by simp [Ends]

theorem ends_cons {c : Char} (h : isWordChar c = false ∧ Text.isDecimalDigit c = false := by decide) :
    Ends (c :: rest) := by
  simpa [Ends] using h

/-! ## Classes of characters -/

/-- A character that opens no comment and no string. -/
def Plain (c : Char) : Prop := c ≠ '/' ∧ c ≠ '"' ∧ c ≠ '\''

instance (c : Char) : Decidable (Plain c) := inferInstanceAs (Decidable (_ ∧ _))

theorem plain_of_isWordStart {c : Char} (hc : isWordStart c = true) : Plain c ∧ Text.isDecimalDigit c = false := by
  have h : ∀ n : Fin 128, isWordStart (Char.ofNat n) = true →
      Plain (Char.ofNat n) ∧ Text.isDecimalDigit (Char.ofNat n) = false := by
    decide +kernel
  have hlt : c.toNat < 128 := by
    rcases Bool.or_eq_true_iff.1 hc with hc | hc
    · rcases Bool.or_eq_true_iff.1 hc with hu | hl
      · have hle : c.val ≤ 'Z'.val := (of_decide_eq_true hu).2
        exact Nat.lt_of_le_of_lt (UInt32.le_iff_toNat_le.1 hle) (by decide)
      · have hle : c.val ≤ 'z'.val := of_decide_eq_true (Bool.and_eq_true_iff.1 hl).2
        exact Nat.lt_of_le_of_lt (UInt32.le_iff_toNat_le.1 hle) (by decide)
    · obtain rfl := of_decide_eq_true hc
      decide
  have hn := h ⟨c.toNat, hlt⟩
  rw [Char.ofNat_toNat] at hn
  exact hn hc

theorem plain_of_isBlank {c : Char} (hc : Text.isBlank c = true) :
    Plain c ∧ isWordChar c = false ∧ Text.isDecimalDigit c = false := by
  have h : ∀ n ∈ Text.blankCodes, Plain (Char.ofNat n) ∧ isWordChar (Char.ofNat n) = false ∧
      Text.isDecimalDigit (Char.ofNat n) = false := by
    decide +kernel
  have hn := h c.toNat (by simpa [Text.isBlank] using hc)
  rwa [Char.ofNat_toNat] at hn

theorem plain_of_isDigit {c : Char} (hc : c.isDigit = true) : Plain c := by
  refine ⟨?_, ?_, ?_⟩ <;> rintro rfl <;> exact absurd hc (by decide)

theorem isWordChar_of_isWordStart {c : Char} (h : isWordStart c = true) : isWordChar c = true := by
  simp only [isWordStart, isWordChar, Char.isAlphanum, Bool.or_eq_true] at h ⊢
  exact h.imp_left Or.inl

/-- A plain character decides by its class. -/
theorem scan?_cons {c : Char} (hc : Plain c) : scan? (c :: s) =
    if Text.isDecimalDigit c then some (digits (c :: s.takeWhile Text.isDecimalDigit), s.dropWhile Text.isDecimalDigit)
    else if isWordStart c then some (word (c :: s.takeWhile isWordChar), s.dropWhile isWordChar)
    else if Text.isBlank c then some (blanks (c :: s.takeWhile Text.isBlank), s.dropWhile Text.isBlank)
    else (marks.lookup c).map fun kind => (mark c kind, s) := by
  obtain ⟨h₁, h₂, h₃⟩ := hc
  rw [scan?]
  all_goals simp_all

/-! ## White space -/

theorem scan?_blank {c : Char} (hc : Text.isBlank c = true) :
    scan? (c :: s) = some (blanks (c :: s.takeWhile Text.isBlank), s.dropWhile Text.isBlank) := by
  obtain ⟨hp, hw, hd⟩ := plain_of_isBlank hc
  have hs : isWordStart c = false := by
    cases hs : isWordStart c with
    | false => rfl
    | true => simp [isWordChar_of_isWordStart hs] at hw
  simp [scan?_cons hp, hd, hs, hc]

/-- White space in front of a text makes no difference. -/
theorem lexes_dropWhile_iff : Lexes (s.dropWhile Text.isBlank) cs ↔ Lexes s cs := by
  cases s with
  | nil => rfl
  | cons c s =>
    cases hc : Text.isBlank c with
    | false => rw [List.dropWhile_cons_of_neg (by simp [hc])]
    | true => simp [List.dropWhile_cons_of_pos hc, lexes_iff_of_scan? (scan?_blank hc), content?, token?]

theorem Lexes.blanks {g : List Char} (hg : ∀ c ∈ g, Text.isBlank c = true) (h : Lexes s cs) : Lexes (g ++ s) cs := by
  rw [← lexes_dropWhile_iff, List.dropWhile_append_of_pos hg, lexes_dropWhile_iff]
  exact h

/-! ## Marks, words and numbers -/

theorem Lexes.mark {c : Char} {kind : TokenKind} (h : Lexes s cs) (hc : (c, kind) ∈ marks := by decide) :
    Lexes (c :: s) ((kind, String.singleton c) :: cs) := by
  have hs : scan? (c :: s) = some (.mark c kind, s) := by
    simp only [marks, List.mem_cons, Prod.mk.injEq, List.not_mem_nil, or_false] at hc
    rcases hc with ⟨rfl, rfl⟩ | ⟨rfl, rfl⟩ | ⟨rfl, rfl⟩ | ⟨rfl, rfl⟩ | ⟨rfl, rfl⟩ | ⟨rfl, rfl⟩ | ⟨rfl, rfl⟩ |
      ⟨rfl, rfl⟩ | ⟨rfl, rfl⟩ | ⟨rfl, rfl⟩ | ⟨rfl, rfl⟩ <;> rfl
  exact h.scan hs rfl

theorem takeWhile_of_ends {p : Char → Bool} {w : List Char} (hw : ∀ c ∈ w, p c = true)
    (hs : ∀ c ∈ s.head?, p c = false) : (w ++ s).takeWhile p = w := by
  rw [List.takeWhile_append_of_pos hw]
  cases s with
  | nil => simp
  | cons c s => rw [List.takeWhile_cons_of_neg (by simpa using hs), List.append_nil]

theorem dropWhile_of_ends {p : Char → Bool} {w : List Char} (hw : ∀ c ∈ w, p c = true)
    (hs : ∀ c ∈ s.head?, p c = false) : (w ++ s).dropWhile p = s := by
  rw [List.dropWhile_append_of_pos hw]
  cases s with
  | nil => rfl
  | cons c s => rw [List.dropWhile_cons_of_neg (by simpa using hs)]

/-- The characters of a word. -/
def IsWord (w : List Char) : Prop := w.head?.any isWordStart = true ∧ w.all isWordChar = true

instance (w : List Char) : Decidable (IsWord w) := inferInstanceAs (Decidable (_ ∧ _))

theorem Lexes.word {w : List Char} (h : Lexes s cs) (hw : IsWord w) (hs : Ends s) :
    Lexes (w ++ s) ((wordKind w, String.ofList w) :: cs) := by
  obtain ⟨hstart, hw⟩ := hw
  cases w with
  | nil => cases hstart
  | cons d w =>
    have hstart : isWordStart d = true := hstart
    obtain ⟨hp, hd⟩ := plain_of_isWordStart hstart
    have hw := fun e he => List.all_eq_true.1 hw e (List.mem_cons_of_mem d he)
    have hscan : scan? (d :: w ++ s) = some (.word (d :: w), s) := by
      rw [List.cons_append, scan?_cons hp, hd, if_neg Bool.false_ne_true, if_pos hstart,
        takeWhile_of_ends hw fun e he => (hs e he).1, dropWhile_of_ends hw fun e he => (hs e he).1]
    exact h.scan hscan rfl

theorem Lexes.number {w : List Char} (h : Lexes s cs) (hne : w ≠ []) (hw : ∀ c ∈ w, c.isDigit = true) (hs : Ends s) :
    Lexes (w ++ s) ((.number, String.ofList w) :: cs) := by
  cases w with
  | nil => cases hne rfl
  | cons d w =>
    have hdigit := hw d List.mem_cons_self
    have hp := plain_of_isDigit hdigit
    have hd := Text.isDecimalDigit_of_isDigit hdigit
    have hw := fun e he => Text.isDecimalDigit_of_isDigit (hw e (List.mem_cons_of_mem d he))
    have hscan : scan? (d :: w ++ s) = some (.digits (d :: w), s) := by
      rw [List.cons_append, scan?_cons hp, if_pos hd, takeWhile_of_ends hw fun e he => (hs e he).2,
        dropWhile_of_ends hw fun e he => (hs e he).2]
    exact h.scan hscan (by simp [content?, token?, digitsKind, hdigit])

/-! ## Comments -/

/-- A text that does not contain the closing mark of a comment. -/
def Unclosing (s : List Char) : Prop := ¬ ['*', '/'] <:+: s

theorem scanBlock?_of_unclosing : ∀ {body : List Char}, Unclosing body →
    scanBlock? (body ++ ' ' :: '*' :: '/' :: s) = some (body ++ [' '], s)
  | [], _ => rfl
  | c :: body, h => by
    have hb : Unclosing body := fun hi => h (hi.trans (List.suffix_cons c body).isInfix)
    have hc : ∀ r, c = '*' → body ++ ' ' :: '*' :: '/' :: s ≠ '/' :: r := by
      rintro r rfl hr
      cases body with
      | nil => simp at hr
      | cons d body =>
        obtain rfl : d = '/' := (List.cons.inj hr).1
        exact h (List.prefix_append ['*', '/'] body).isInfix
    rw [List.cons_append, scanBlock?]
    · rw [scanBlock?_of_unclosing hb]
      rfl
    · exact hc

/-- Spaces around a text are no part of what is left of it. -/
theorem trim_spaced (s : List Char) : Text.trim (' ' :: (s ++ [' '])) = Text.trim s := by
  have hspace : Text.isBlank ' ' = true := by decide
  have hstart : Text.trimStart (' ' :: (s ++ [' '])) =
      if (Text.trimStart s).isEmpty then [] else Text.trimStart s ++ [' '] := by
    simp [Text.trimStart, List.dropWhile_append, hspace]
  rw [Text.trim, Text.trim, hstart]
  split
  · rename_i h
    rw [List.isEmpty_iff.1 h]
  · simp [Text.trimStart, hspace]

theorem Lexes.comment {text : List Char} (h : Lexes s cs) (ht : Text.trim text = text) (hu : Unclosing text) :
    Lexes ('/' :: '*' :: ' ' :: (text ++ ' ' :: '*' :: '/' :: s)) ((.blockComment, String.ofList text) :: cs) := by
  have hu : Unclosing (' ' :: text) := by
    rintro hi
    rcases List.infix_cons_iff.1 hi with hp | hi
    · simp at hp
    · exact hu hi
  have hs : scan? ('/' :: '*' :: ' ' :: (text ++ ' ' :: '*' :: '/' :: s)) =
      some (.blockComment (' ' :: (text ++ [' '])), s) := by
    have hb := scanBlock?_of_unclosing (s := s) hu
    simp only [List.cons_append] at hb
    simp [scan?, hb]
  exact h.scan hs (by simp [content?, token?, trim_spaced, ht])

end Element

end SchemaLang
