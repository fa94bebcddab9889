import SchemaLang.Attribute.Basic
import SchemaLang.Token.Reader

/-!
# Reading attributes

An attribute is a keyword in brackets, with an argument in parentheses or without one.

* `Attribute.read?` reads an attribute if the cursor is at an opening bracket. Comments may stand around the keyword and
  before either closing mark, but not around the opening parenthesis.
* The argument is a string; for `opcode` it may also be a number.
* A keyword that no attribute has is refused once its closing bracket is read.
-/

namespace SchemaLang.Attribute

open TokenReader

/-- The kinds of tokens that may be the argument of a keyword. -/
def argumentKinds (keyword : String) : List TokenKind :=
  if keyword = "opcode" then [.escapedString, .rawString, .number] else [.escapedString, .rawString]

/-- The argument of a keyword, empty if there is none, and whether it is a number. -/
def readArgument (keyword : String) : TokenReader (String × Bool) := do
  match ← eat? .openParenthesis with
  | none => return ("", false)
  | some _ =>
    let literal ← take (argumentKinds keyword) none
    let _ ← expect .closeParenthesis none
    return (literal.lexeme, literal.kind = .number)

/-- The attribute at the cursor, if there is one. -/
def read? : TokenReader (Option Attribute) := do
  match ← eat? .openBracket with
  | none => return none
  | some _ =>
    let name ← expect .identifier none
    let (argument, isNumber) ← readArgument name.lexeme
    let _ ← expect .closeBracket none
    match ofKeyword? name.lexeme argument isNumber with
    | some a => return some a
    | none => fail (.unknownAttribute name.lexeme name)

end SchemaLang.Attribute
