import SchemaLang.Text.Numeral
import SchemaLang.Text.Quoted

/-!
# JSON documents

JSON values with whole numbers, whose objects keep their keys in order, and their text.

* `Json.write` lays a value out over several lines: each item of an array and each member of an object has a line of its
  own, two blanks deeper than the brackets around it. An empty array or object stays on its line.
* `Json.pretty` is the text of a whole document; it does not end with a line feed.
-/

namespace SchemaLang

/-- A JSON value. -/
inductive Json where
  | null
  | bool (value : Bool)
  | number (value : Int)
  | string (value : String)
  | array (items : List Json)
  | object (members : List (String × Json))

namespace Json

/-- The start of a line at a depth. -/
def newLine (depth : Nat) : List Char := '\n' :: List.replicate (2 * depth) ' '

mutual

/-- The text of a value inside brackets of the given depth. -/
def write (depth : Nat) : Json → List Char
  | null => ['n', 'u', 'l', 'l']
  | bool true => ['t', 'r', 'u', 'e']
  | bool false => ['f', 'a', 'l', 's', 'e']
  | number value => Text.signedDecimal value
  | string value => Text.quoteChars value.toList
  | array [] => ['[', ']']
  | array (item :: items) => '[' :: writeItems (depth + 1) (item :: items) ++ newLine depth ++ [']']
  | object [] => ['\x7b', '\x7d']
  | object (member :: members) =>
    '\x7b' :: writeMembers (depth + 1) (member :: members) ++ newLine depth ++ ['\x7d']

/-- The text of the items of an array, each on its line. -/
def writeItems (depth : Nat) : List Json → List Char
  | [] => []
  | [item] => newLine depth ++ write depth item
  | item :: next :: items => newLine depth ++ write depth item ++ ',' :: writeItems depth (next :: items)

/-- The text of the members of an object, each on its line. -/
def writeMembers (depth : Nat) : List (String × Json) → List Char
  | [] => []
  | [(key, value)] => newLine depth ++ Text.quoteChars key.toList ++ ':' :: ' ' :: write depth value
  | (key, value) :: next :: members =>
    newLine depth ++ Text.quoteChars key.toList ++ ':' :: ' ' :: write depth value
      ++ ',' :: writeMembers depth (next :: members)

end

/-- The text of a document. -/
def pretty (document : Json) : String := String.ofList (document.write 0)

end Json

end SchemaLang
