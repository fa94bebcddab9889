import SchemaLang.Token.Reader

/-!
# Reading types

A type is a map, an array or a name, followed by any number of array suffixes.

* `FieldType.readIn` reads a type after any comments. No comment may stand before the bracket of a suffix, as a type
  ends with its last suffix. The names in it are noted on the way (`Noting.typeName`); `FieldType.read` notes nothing.
* The key of a map has to be built in (`Diagnostic.invalidMapKey`).
* A name that no built-in type has is the name of a definition (`FieldType.ofName`).
-/

namespace SchemaLang.FieldType

open TokenReader

/-- The hint for malformed map types. -/
def mapHint : String := "The syntax for map types is: map[KeyType, ValueType]."

/-- The hint for malformed array types. -/
def arrayHint : String := "The syntax for array types is either array[Type] or Type[]."

/-- The hint for malformed array suffixes. -/
def suffixHint : String := "The syntax for array types is T[]. You can't specify a fixed size."

/-- The type that a name token stands for. -/
def ofName (name : Token) : FieldType :=
  match Scalar.ofName? name.lexeme with
  | some base => scalar base name.span
  | none => defined name.lexeme name.span

/-- One array suffix, if the cursor is at one: the place of its closing bracket. -/
def readSuffix? : TokenReader (Option Span) := do
  match ← eat? .openBracket with
  | none => return none
  | some _ => return some (← expect .closeBracket (some suffixHint)).span

/-- A type with array suffixes, each given by its closing bracket. -/
def withSuffixes (t : FieldType) (closings : List Span) : FieldType :=
  closings.foldl (fun element closing => element.arrayOf (element.span.combine closing)) t

section

variable {m : Type → Type} [Monad m] [MonadLiftT TokenReader m] [Noting m]

/-- The rest of a map type after its keyword, given how to read the types inside. -/
def readMap (readInner : m FieldType) (word : Token) : m FieldType := do
  let _ ← expect .openBracket (some mapHint)
  let key ← readInner
  if key.isScalar then
    let _ ← expect .comma (some mapHint)
    let value ← readInner
    let closing ← expect .closeBracket (some mapHint)
    return map key value (word.span.combine closing.span)
  else
    fail (.invalidMapKey key)

/-- The rest of an array type after its keyword, given how to read the type inside. -/
def readArray (readInner : m FieldType) (word : Token) : m FieldType := do
  let _ ← expect .openBracket (some arrayHint)
  let element ← readInner
  let closing ← expect .closeBracket (some arrayHint)
  return element.arrayOf (word.span.combine closing.span)

/-- The type of a name. -/
def readName : m FieldType := do
  let name ← expect .identifier none
  Noting.typeName name
  return ofName name

theorem readName_eq : readName = (do return ofName (← expect .identifier none) : TokenReader FieldType) := rfl

/-- A type without suffixes, given how to read the types inside. -/
def readBase (readInner : m FieldType) : m FieldType := do
  match ← eat? .map with
  | some word => readMap readInner word
  | none =>
    match ← eat? .array with
    | some word => readArray readInner word
    | none => readName

/-- A type in which types nest less than `depth` deep. -/
def readUpTo : Nat → m FieldType
  | 0 => fail .missingEndOfFile
  | depth + 1 => do
    skipComments
    let base ← readBase (readUpTo depth)
    return base.withSuffixes (← many (m := TokenReader) readSuffix?)

variable (m) in
/-- A type. Types nest less deep than there are tokens, as each level has a bracket of its own. -/
def readIn : m FieldType := do
  readUpTo ((← remaining) + 1)

end

/-- A type, read without notes. -/
def read : TokenReader FieldType := readIn TokenReader

/-- Without notes it does not matter in which definition a type is read. -/
@[simp]
theorem inDefinition_readIn (owner : Token) : Noting.inDefinition owner (readIn TokenReader) = read := rfl

theorem read_apply (ts : List Token) : read ts = readUpTo (m := TokenReader) (ts.length + 1) ts := rfl

end SchemaLang.FieldType
