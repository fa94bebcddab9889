import SchemaLang.Text.Blank
import SchemaLang.Text.Numeral
import SchemaLang.Text.Separated

/-!
# Attributes

What may be said in brackets about a definition or a field.

* `Attribute.ofKeyword?` builds an attribute from its keyword and its argument, which is empty if there is none.
* `Attribute.permissionsOf` reads a list of permissions: the pieces between commas, trimmed, without the empty ones.
* `Attribute.invalid?` gives the reason why the payload of an attribute is invalid. Only opcodes can be: a numeric one
  has to be an unsigned 32-bit number, a textual one four ASCII characters.
-/

namespace SchemaLang

/-- A remark on a definition or a field. -/
inductive Attribute where
  | deprecated (reason : String)
  /-- The code of a message, written as a number or as four characters. -/
  | opcode (value : String) (isNumber : Bool)
  | query (value : String)
  | command
  /-- The permissions of which one is enough. -/
  | authorize (permissions : List String)
  deriving DecidableEq

namespace Attribute

/-- The permissions that an argument lists. -/
def permissionsOf (argument : String) : List String :=
  (((Text.pieces ',' argument.toList).map Text.trim).filter (· ≠ [])).map String.ofList

/-- The attribute with a keyword, given its argument and whether that is a number. -/
def ofKeyword? (keyword argument : String) (isNumber : Bool) : Option Attribute :=
  if keyword = "deprecated" then some (deprecated argument)
  else if keyword = "opcode" then some (opcode argument isNumber)
  else if keyword = "query" then some (query argument)
  else if keyword = "command" then some command
  else if keyword = "authorizeWhenHasAnyOf" then some (authorize (permissionsOf argument))
  else none

/-- The keyword of an attribute. -/
def keyword : Attribute → String
  | deprecated _ => "deprecated"
  | opcode _ _ => "opcode"
  | query _ => "query"
  | command => "command"
  | authorize _ => "authorizeWhenHasAnyOf"

/-- The payload of an attribute as text. Permissions are put in quotes, with nothing escaped. -/
def value : Attribute → String
  | deprecated reason => reason
  | opcode value _ => value
  | query value => value
  | command => ""
  | authorize permissions =>
    String.ofList (Text.join [',', ' '] (permissions.map fun p => '"' :: (p.toList ++ ['"'])))

/-- Four ASCII characters. -/
def isFourCharacterCode (s : String) : Bool := s.toList.length = 4 ∧ s.toList.all fun c => c.toNat < 128

/-- The reason why the payload of an attribute is invalid, if it is. -/
def invalid? : Attribute → Option String
  | opcode value true =>
    if (Text.unsigned32? value.toList).isSome then none
    else some ("\"" ++ value ++ "\" is not a valid uint32 opcode")
  | opcode value false =>
    if isFourCharacterCode value then none
    else some ("\"" ++ value ++ "\" is not a valid FourCC; string opcodes must be exactly four ASCII characters")
  | _ => none

/-- Whether the attribute says that something is deprecated. -/
def isDeprecated : Attribute → Bool
  | deprecated _ => true
  | _ => false

end Attribute

end SchemaLang
