import SchemaLang.Proofs.Streams

/-!
# Positions are counted right

* `Text.bytes` are the UTF-8 bytes of a text. Only a line feed has the byte of a line feed among its bytes
  (`Text.lineFeed_mem_bytes_iff`), so lines may be counted in bytes (`Text.count_bytes`, `Text.rtakeWhile_bytes`).
* `Position.IsIn` says of a position in a text, in terms of the bytes before its offset, which line and column it has.
* Reading a text moves the position over one piece after the other; the place is always the one behind all pieces so far
  (`Position.past_behind`, `Position.foldl_past`).
* Main result: `Token.positions_isIn`.
-/

namespace SchemaLang

/-! ## Bytes -/

namespace Text

/-- The UTF-8 bytes of a text. -/
def bytes (s : List Char) : List UInt8 := s.flatMap String.utf8EncodeChar

/-- The byte of a line feed. -/
def lineFeed : UInt8 := 10

variable {c : Char}

/-- These are the bytes that a text is stored as. -/
theorem toByteArray_ofList (s : List Char) : (String.ofList s).toByteArray = (bytes s).toByteArray :=
  String.toByteArray_ofList

theorem bytes_append (s t : List Char) : bytes (s ++ t) = bytes s ++ bytes t := List.flatMap_append

theorem bytes_singleton (c : Char) : bytes [c] = String.utf8EncodeChar c := by simp [bytes]

theorem length_bytes (s : List Char) : (bytes s).length = (String.ofList s).utf8ByteSize := by
  rw [← String.size_toByteArray, toByteArray_ofList, List.size_toByteArray]

/-- The bytes of every character but a line feed are others. -/
theorem lineFeed_not_mem_utf8EncodeChar (h : c ≠ '\n') : lineFeed ∉ String.utf8EncodeChar c := by
  have hc : c.val.toNat ≠ 10 := by
    intro hn
    apply h
    exact Char.ext (UInt32.toNat_inj.1 hn)
  simp only [String.utf8EncodeChar, lineFeed]
  generalize c.val.toNat = v at hc ⊢
  -- the only byte of a character is its number, and each of several bytes is 128 or more
  by_cases h₁ : v ≤ 127
  · rw [if_pos h₁]
    simp [← UInt8.toNat_inj]
    omega
  · rw [if_neg h₁]
    by_cases h₂ : v ≤ 2047
    · rw [if_pos h₂]
      simp [← UInt8.toNat_inj]
      omega
    · rw [if_neg h₂]
      split
      · simp [← UInt8.toNat_inj]
        omega
      · simp [← UInt8.toNat_inj]
        omega

theorem utf8EncodeChar_lineFeed : String.utf8EncodeChar '\n' = [lineFeed] := by decide

/-- There are as many bytes of line feeds as line feeds. -/
theorem count_bytes (s : List Char) : (bytes s).count lineFeed = s.count '\n' := by
  induction s with
  | nil => rfl
  | cons c s ih =>
    rw [← List.singleton_append, bytes_append, List.count_append, List.count_append, ih, bytes_singleton]
    by_cases hc : c = '\n'
    · subst hc
      rw [utf8EncodeChar_lineFeed]
      rfl
    · rw [List.count_eq_zero.2 (lineFeed_not_mem_utf8EncodeChar hc), List.count_singleton]
      simp [hc]

/-- The bytes behind the last line feed are those of the text behind it. -/
theorem rtakeWhile_bytes (s : List Char) :
    (bytes s).rtakeWhile (· ≠ lineFeed) = bytes (s.rtakeWhile (· ≠ '\n')) := by
  induction s using List.reverseRecOn with
  | nil => rfl
  | append_singleton s c ih =>
    rw [bytes_append, bytes_singleton, List.rtakeWhile_concat]
    by_cases hc : c = '\n'
    · subst hc
      rw [utf8EncodeChar_lineFeed, List.rtakeWhile_concat]
      simp [bytes]
    · have hall : ∀ b ∈ (String.utf8EncodeChar c).reverse, decide (b ≠ lineFeed) = true := by
        intro b hb
        have hne : b ≠ lineFeed := by
          rintro rfl
          exact lineFeed_not_mem_utf8EncodeChar hc (List.mem_reverse.1 hb)
        exact decide_eq_true hne
      rw [if_pos (decide_eq_true hc), bytes_append, bytes_singleton, ← ih, List.rtakeWhile, List.rtakeWhile,
        List.reverse_append, List.takeWhile_append_of_pos hall, List.reverse_append, List.reverse_reverse]

end Text

/-! ## Positions -/

namespace Position

/-- A position in a text. The line is one more than the line feeds among the bytes before its offset, the column is one
more than the bytes between the last of these line feeds, or the start of the text, and the offset. -/
structure IsIn (text : String) (p : Position) : Prop where
  offset_le : p.offset ≤ text.utf8ByteSize
  line_eq : p.line = 1 + ((Text.bytes text.toList).take p.offset).count Text.lineFeed
  column_eq : p.column = 1 + (((Text.bytes text.toList).take p.offset).rtakeWhile (· ≠ Text.lineFeed)).length

/-- The place behind a part of a text from its start on is a position in the text. -/
theorem isIn_behind {text : String} {before after : List Char} (h : text.toList = before ++ after) :
    (behind before).IsIn text := by
  have hoffset : (behind before).offset = (Text.bytes before).length := (Text.length_bytes before).symm
  have htake : (Text.bytes text.toList).take (behind before).offset = Text.bytes before := by
    rw [h, Text.bytes_append, hoffset, List.take_left]
  constructor
  · rw [← String.ofList_toList (s := text), h, String.ofList_append, String.utf8ByteSize_append]
    exact Nat.le_add_right _ _
  · rw [htake, Text.count_bytes]
    exact Nat.add_comm _ _
  · rw [htake, Text.rtakeWhile_bytes, Text.length_bytes]
    exact Nat.add_comm _ _

example : IsIn "é\n ü." ⟨6, 2, 4⟩ := ⟨by decide, by decide, by decide⟩

/-- One more piece of text moves the place behind a text to the place behind both. -/
theorem past_behind (before part : List Char) : (behind before).past part = behind (before ++ part) := by
  rw [past_eq_advance, ← advance_start, ← advance_start, advance_append]

/-- Moving over pieces of text one after the other comes to the place behind all of them. -/
theorem foldl_past (before : List Char) (parts : List (List Char)) :
    parts.foldl past (behind before) = behind (before ++ parts.flatten) := by
  induction parts generalizing before with
  | nil => simp
  | cons part parts ih => rw [List.foldl_cons, past_behind, ih, List.flatten_cons, List.append_assoc]

/-- Moving over the pieces of a text and counting over the whole text come to the same place. -/
theorem foldl_past_start (parts : List (List Char)) : parts.foldl past start = finish parts.flatten := by
  rw [finish_eq_behind]
  exact foldl_past [] parts

theorem isIn_finish (text : String) : (finish text.toList).IsIn text := by
  rw [finish_eq_behind]
  exact isIn_behind (List.append_nil _).symm

end Position

/-! ## Tokens and problems -/

/-- What a text gives, tokens of a source or a problem with its text, has positions in the text only. -/
def Positioned (text : String) (file : Nat) : Except Diagnostic (List Token) → Prop
  | .ok tokens => ∀ t ∈ tokens, t.span.file = file ∧ t.span.start.IsIn text ∧ t.span.stop.IsIn text
  | .error problem => ∃ message p, problem = .lexical message (Span.point file p) ∧ p.IsIn text

theorem Span.Covers.isIn {text : String} {span : Span} {slice : List Char} (h : span.Covers text.toList slice) :
    span.start.IsIn text ∧ span.stop.IsIn text := by
  obtain ⟨before, after, htext, hstart, hstop⟩ := h
  rw [hstart, hstop]
  constructor
  · apply Position.isIn_behind
    rw [htext, List.append_assoc]
  · exact Position.isIn_behind htext

/-- What reading a text gives has positions in the text. -/
theorem Token.positioned_ofText (text : String) (file : Nat) : Positioned text file (ofText text file) := by
  cases h : ofText text file with
  | ok tokens =>
    intro t ht
    obtain ⟨slice, hcovers, _⟩ := exists_covers_token h ht
    exact ⟨(lined_ofText h).file_eq t ht, hcovers.isIn⟩
  | error problem =>
    rw [ofText_eq] at h
    split at h
    · cases h
    · rename_i es stuck _ hsplit
      obtain rfl := Except.error.inj h
      obtain ⟨htext, _⟩ := Element.split_eq_iff.1 hsplit
      refine ⟨_, _, rfl, ?_⟩
      rw [afterElements_eq_advance, Position.advance_start]
      exact Position.isIn_behind htext

/-- The tokens of a text at hand are those of the text and an end of file at the end of the text. -/
theorem Source.stream_text_eq (text : String) (disk : Disk) : stream disk [.text text] =
    (Token.ofText text 0).map (· ++ [Token.endOfFile (Span.point 0 (Position.finish text.toList))]) := by
  cases h : Token.ofText text 0 with
  | ok tokens => exact stream_text h disk
  | error problem => exact stream_text_error h disk

/-- The end of file, too, has a position in the text. -/
theorem Source.positioned_stream (text : String) (disk : Disk) : Positioned text 0 (stream disk [.text text]) := by
  have hread := Token.positioned_ofText text 0
  rw [stream_text_eq]
  cases h : Token.ofText text 0 with
  | ok tokens =>
    rw [h] at hread
    intro t ht
    rcases List.mem_append.1 ht with ht | ht
    · exact hread t ht
    · obtain rfl := List.mem_singleton.1 ht
      exact ⟨rfl, Position.isIn_finish text, Position.isIn_finish text⟩
  | error problem =>
    rw [h] at hread
    exact hread

/-- Every place in what reading a text gives, with or without an end of file, is a position in the text, and so is the
place of a problem. The end of file is at the place that moving over the text piece by piece comes to. -/
theorem Token.positions_isIn (text : String) (file : Nat) (disk : Disk) :
    Positioned text file (ofText text file) ∧ Positioned text 0 (Source.stream disk [.text text]) ∧
      (Source.stream disk [.text text] =
        (ofText text 0).map (· ++ [endOfFile (Span.point 0 (Position.finish text.toList))])) ∧
      ∀ parts : List (List Char), parts.foldl Position.past Position.start = Position.finish parts.flatten :=
  ⟨positioned_ofText text file, Source.positioned_stream text disk, Source.stream_text_eq text disk,
    Position.foldl_past_start⟩

end SchemaLang
