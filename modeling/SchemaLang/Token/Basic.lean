import SchemaLang.Span
import SchemaLang.Text.Quoted

/-!
# Tokens

The words and marks of a schema, after blanks and line comments are gone.

* `TokenKind` lists the kinds, `TokenKind.description` names them in messages.
* `keywords` are the six words that the grammar reserves, each with the kind it has as a token.
* `Token.describe` names one token in a message, with its lexeme where the kind alone does not say it.
-/

namespace SchemaLang

/-- The kinds of tokens. -/
inductive TokenKind where
  | identifier
  | number
  /-- A string in single quotes, in which nothing is escaped. -/
  | rawString
  /-- A string in double quotes, with backslash escapes. -/
  | escapedString
  | blockComment
  | openBrace
  | closeBrace
  | openBracket
  | closeBracket
  | openParenthesis
  | closeParenthesis
  | semicolon
  | equals
  | comma
  | hyphen
  | greater
  | enum
  | struct
  | message
  | map
  | array
  | readonly
  | endOfFile
  deriving DecidableEq

/-- The words that the grammar reserves, with their kinds. None of them may name a field. -/
def keywords : List (String × TokenKind) :=
  [("enum", .enum), ("struct", .struct), ("message", .message), ("map", .map), ("array", .array),
   ("readonly", .readonly)]

/-- The kind of a reserved word. -/
def keyword? (word : String) : Option TokenKind := keywords.lookup word

/-- Whether the grammar reserves a word. -/
def isKeyword (word : String) : Bool := (keyword? word).isSome

namespace TokenKind

/-- Whether tokens of the kind are reserved words. -/
def isKeyword (kind : TokenKind) : Bool := (keywords.map Prod.snd).contains kind

/-- What messages call a token of the kind. -/
def description : TokenKind → String
  | identifier => "identifier"
  | number => "number"
  | rawString => "string literal"
  | escapedString => "string"
  | blockComment => "block comment"
  | openBrace => "\"\x7b\""
  | closeBrace => "\"\x7d\""
  | openBracket => "\"[\""
  | closeBracket => "\"]\""
  | openParenthesis => "\"(\""
  | closeParenthesis => "\")\""
  | semicolon => "\";\""
  | equals => "\"=\""
  | comma => "\",\""
  | hyphen => "\"-\""
  | greater => "\">\""
  | enum => "\"enum\""
  | struct => "\"struct\""
  | message => "\"message\""
  | map => "\"map\""
  | array => "\"array\""
  | readonly => "\"readonly\""
  | endOfFile => "end of file"

end TokenKind

/-- A token: its kind, the text it stands for and its place in the source. -/
structure Token where
  kind : TokenKind
  lexeme : String
  span : Span
  deriving DecidableEq

namespace Token

/-- The token that ends a stream. -/
def endOfFile (span : Span) : Token := ⟨.endOfFile, "", span⟩

/-- Whether the token is a block comment. -/
def isComment (t : Token) : Bool := t.kind = .blockComment

/-- What messages call the token. -/
def describe (t : Token) : String :=
  match t.kind with
  | .identifier | .number | .rawString | .escapedString => t.kind.description ++ " " ++ Text.quote t.lexeme
  | kind => kind.description

end Token

end SchemaLang
