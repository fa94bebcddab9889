import SchemaLang.Attribute.Reader
import SchemaLang.Definition.Basic
import SchemaLang.FieldType.Reader

/-!
# Reading definitions

* `Field.read` reads a field up to its semicolon: an attribute, the index of a message field, the type unless it is an
  enum constant, the name, and the value of an enum constant.
* `Definition.readIn?` reads the next definition up to its closing brace, or finds the end of the file. The last of the
  comments before a definition or a field is its documentation. `Definition.read?` does so without notes on type names.
-/

namespace SchemaLang

open TokenReader

/-! ## Fields -/

namespace Field

/-- The hint for message fields without an index. -/
def indexHint : String :=
  "Fields in a message must be explicitly indexed: message A \x7b 1 -> string s; 2 -> bool b; \x7d"

/-- The hint for enum constants without an equals sign. -/
def equalsHint : String := "Every constant in an enum must have an explicit literal value."

/-- The hint for enum constants without a number. -/
def constantHint : String := "An enum constant must have a literal integer value."

/-- The hint for fields without a semicolon. -/
def semicolonHint (kind : DefinitionKind) : String :=
  "Elements in " ++ withArticle kind.keyword ++ " are delimited using semicolons."

/-- A number token as a signed 32-bit integer. -/
def readInteger (hint : String) : TokenReader Int := do
  let token ← expect .number (some hint)
  match Text.signed32? token.lexeme.toList with
  | some n => return n
  | none => fail (.invalidNumber token.lexeme token.span)

/-- The index of a message field with its arrow; nothing in other definitions. -/
def readIndex : DefinitionKind → TokenReader Int
  | .message => do
    let index ← readInteger indexHint
    let _ ← expect .hyphen (some indexHint)
    let _ ← expect .greater (some indexHint)
    return index
  | _ => return 0

/-- Whether a token is a keyword or is spelled like one where a name may stand. -/
def isReserved (t : Token) : Bool :=
  t.kind.isKeyword || (t.kind = .identifier && SchemaLang.isKeyword t.lexeme)

/-- The name of a field. -/
def readName : TokenReader Token := do
  skipComments
  let candidate ← current
  if isReserved candidate then fail (.reservedIdentifier candidate.lexeme candidate.span)
  else expect .identifier none

/-- The value of an enum constant; in other definitions the given one. -/
def readConstant (index : Int) : DefinitionKind → TokenReader Int
  | .enum => do
    let _ ← expect .equals (some equalsHint)
    readInteger constantHint
  | _ => return index

section

variable {m : Type → Type} [Monad m] [MonadLiftT TokenReader m] [Noting m]

/-- The type of a field. The constants of an enum are 32-bit numbers by definition, at the place of the enum's name. -/
def readType (owner : Token) : DefinitionKind → m FieldType
  | .enum => return .scalar .uint32 owner.span
  | _ => Noting.inDefinition owner (FieldType.readIn m)

/-- A field of a definition with the given name token, up to the semicolon. Of its attribute only a deprecation is
kept. -/
def read (kind : DefinitionKind) (owner : Token) (documentation : String) : m Field := do
  let remark ← Attribute.read?
  let index ← readIndex kind
  let type ← readType owner kind
  let name ← readName
  let value ← readConstant index kind
  let closing ← expect .semicolon (some (semicolonHint kind))
  return {
    name := name.lexeme
    type := type
    span := name.span.combine closing.span
    deprecated := remark.filter Attribute.isDeprecated
    value := value
    documentation := documentation }

/-- The next field of a body; none before the closing brace. -/
def read? (kind : DefinitionKind) (owner : Token) : m (Option Field) := do
  let documentation ← lastComment
  if (← current).kind = .closeBrace then return none
  else return some (← read kind owner documentation)

end

end Field

/-! ## Definitions -/

namespace DefinitionKind

/-- The kind that a keyword starts. -/
def ofKeyword? : TokenKind → Option DefinitionKind
  | .enum => some enum
  | .struct => some struct
  | .message => some message
  | _ => none

/-- The word that says what is defined. -/
def read : TokenReader DefinitionKind := do
  let word ← current
  match ofKeyword? word.kind with
  | some kind =>
    advance
    return kind
  | none => fail (.unexpectedToken [.enum, .struct, .message] word none)

end DefinitionKind

namespace Definition

/-- The hint for definitions without a name. -/
def nameHint (kind : DefinitionKind) : String := "Did you forget to specify a name for this " ++ kind.keyword ++ "?"

/-- The next definition together with its name token; none at the end of the file. -/
def readIn? (m : Type → Type) [Monad m] [MonadLiftT TokenReader m] [Noting m] : m (Option (Token × Definition)) := do
  let documentation ← lastComment
  if (← current).kind = .endOfFile then return none
  else
    let attributes ← many (m := TokenReader) Attribute.read?
    let modifier ← eat? .readonly
    let kind ← DefinitionKind.read
    let name ← expect .identifier (some (nameHint kind))
    let _ ← expect .openBrace none
    let fields ← many (Field.read? kind name)
    let closing ← expect .closeBrace none
    return some (name, {
      name := name.lexeme
      kind := kind
      isReadOnly := modifier.isSome
      span := name.span.combine closing.span
      documentation := documentation
      attributes := attributes
      fields := fields })

/-- The next definition together with its name token, read without notes; none at the end of the file. -/
def read? : TokenReader (Option (Token × Definition)) := readIn? TokenReader

end Definition

end SchemaLang
