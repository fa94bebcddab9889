import SchemaLang.Diagnostic
import SchemaLang.Text.Pattern
import SchemaLang.Text.Separated
import SchemaLang.Token.Element

/-!
# Tokens of a text

* `Element.pattern` is the pattern of all lexical elements. Its alternatives are tried in a fixed order.
* `Token.classify` says what token a piece of text is by its first character, and `Token.isLayout` whether it is one.
* `Token.ofText` reads a whole text. It looks for one match of the pattern after the other, anywhere in what is left,
  and fails if it had to skip text in front of a match or if text is left behind the last one.
* `Position.finish` is the place after a text, where its end-of-file token stands.
-/

namespace SchemaLang

open Text (Pattern)

/-- The place after the last character of a text, counted over the whole text. -/
def Position.finish (s : List Char) : Position :=
  let size (s : List Char) := (String.ofList s).utf8ByteSize
  ⟨size s, s.count '\n' + 1, size ((Text.pieces '\n' s).getLast?.getD []) + 1⟩

/-- The place after a piece of text. Only the last line feed in it counts for the column. -/
def Position.past (p : Position) (part : List Char) : Position :=
  let size (s : List Char) := (String.ofList s).utf8ByteSize
  if '\n' ∈ part then
    ⟨p.offset + size part, p.line + part.count '\n', size ((Text.pieces '\n' part).getLast?.getD []) + 1⟩
  else ⟨p.offset + size part, p.line, p.column + size part⟩

/-! ## Patterns -/

namespace Element

open Text.Pattern

/-- Two marks with the shortest text between them. -/
def blockCommentPattern : Pattern :=
  seq (only '/') (seq (only '*') (seq (many false (char fun _ => true)) (seq (only '*') (only '/'))))

/-- Two slashes and the rest of the line. -/
def lineCommentPattern : Pattern := seq (only '/') (seq (only '/') (many true (char (· ≠ '\n'))))

/-- A backslash and a character of the same line, or another character that is no double quote. -/
def escapedCharPattern : Pattern :=
  either (seq (only '\\') (char (· ≠ '\n'))) (char fun c => c ≠ '"' ∧ c ≠ '\\')

/-- Double quotes around characters, of which a backslash makes pairs. -/
def escapedStringPattern : Pattern := seq (only '"') (seq (many true escapedCharPattern) (only '"'))

/-- Single quotes around other characters. -/
def rawStringPattern : Pattern := seq (only '\'') (seq (many true (char (· ≠ '\''))) (only '\''))

/-- A letter or an underscore, and letters, digits and underscores. -/
def wordPattern : Pattern := seq (char isWordStart) (many true (char isWordChar))

/-- Runs of digits, words, marks and white space. -/
def plainPattern : Pattern :=
  either (many1 Text.isDecimalDigit) <| either wordPattern <|
    either (char fun c => (marks.lookup c).isSome) (many1 Text.isBlank)

/-- The pattern of lexical elements. -/
def pattern : Pattern :=
  either blockCommentPattern <| either lineCommentPattern <| either escapedStringPattern <|
    either rawStringPattern plainPattern

/-- The pattern of texts that are no tokens: line comments and white space. -/
def layoutPattern : Pattern := either lineCommentPattern (many1 Text.isBlank)

end Element

/-! ## Reading -/

namespace Token

/-- Whether a piece of text is no token. -/
def isLayout (part : List Char) : Bool := Element.layoutPattern.isWhole part || ['/', '/'].isPrefixOf part

/-- The kind of a mark, a number or a word, by its first character. -/
def plainKind : List Char → TokenKind
  | [] => .identifier
  | c :: s => (Element.marks.lookup c).getD (if c.isDigit then .number else Element.wordKind (c :: s))

/-- The kind and the lexeme of a piece of text, by its first character. -/
def classify : List Char → TokenKind × List Char
  | '/' :: s => (.blockComment, Text.trim ((s.drop 1).dropLast).dropLast)
  | '"' :: s => (.escapedString, Element.unescape s.dropLast)
  | '\'' :: s => (.rawString, s.dropLast)
  | s => (plainKind s, s)

/-- The problem of text that is no part of an element. -/
def unexpectedText (file : Nat) (p : Position) (s : List Char) : Diagnostic :=
  .lexical ("Unexpected text " ++ Text.quote (String.ofList s)) (Span.point file p)

/-- The tokens of at most `n` matches in a text that begins at a place. -/
def readUpTo (file : Nat) : Nat → Position → List Char → Except Diagnostic (List Token)
  | 0, p, s => .error (unexpectedText file p s)
  | n + 1, p, s =>
    match Element.pattern.find? s with
    | none => if s = [] then .ok [] else .error (unexpectedText file p s)
    | some (skipped, part, rest) =>
      if skipped ≠ [] then .error (unexpectedText file p skipped)
      else do
        let q := p.past part
        let following ← readUpTo file n q rest
        if isLayout part then return following
        else
          let (kind, lexeme) := classify part
          return ⟨kind, String.ofList lexeme, ⟨file, p, q⟩⟩ :: following

/-- The tokens of a text, without an end of file. -/
def ofText (text : String) (file : Nat) : Except Diagnostic (List Token) :=
  readUpTo file (text.toList.length + 1) Position.start text.toList

end Token

end SchemaLang
