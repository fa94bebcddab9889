import SchemaLang.FieldType.Basic
import SchemaLang.Files.Fault
import SchemaLang.Token.Basic

/-!
# Diagnostics

What can be wrong with a schema.

* `Diagnostic` lists the causes with what is known about each.
* `Diagnostic.message` is the wording and `Diagnostic.span?` the place. A diagnostic has a place unless it is about a
  file as a whole or about a token list without an end (`Diagnostic.span?_eq_none_iff`).
* An outcome is a result or a problem. Outcomes that are put together are taken apart again by a few lemmas, such as
  `exists_of_bind_eq_ok`.
-/

namespace SchemaLang

/-- A reason for which a schema is refused. -/
inductive Diagnostic where
  /-- A source cannot be read. -/
  | unreadable (fault : FileFault)
  /-- The text has no lexical element at a place. -/
  | lexical (problem : String) (span : Span)
  /-- A token stands where only certain other kinds may. -/
  | unexpectedToken (expected : List TokenKind) (actual : Token) (hint : Option String)
  | unknownAttribute (keyword : String) (token : Token)
  /-- A field has a keyword for a name. -/
  | reservedIdentifier (name : String) (span : Span)
  /-- A map has a key that is not built in. -/
  | invalidMapKey (key : FieldType)
  | multipleDefinitions (name : String) (span : Span)
  /-- A type name in a definition is defined nowhere. -/
  | unrecognizedType (name usedIn : String) (span : Span)
  | invalidNumber (lexeme : String) (span : Span)
  /-- An attribute of a definition has an invalid payload. -/
  | invalidAttribute (keyword reason definition : String) (span : Span)
  /-- The tokens run out without an end of file. -/
  | missingEndOfFile
  deriving DecidableEq

namespace Diagnostic

/-- Alternatives as they are listed in a sentence. -/
def oneOf : List TokenKind → String
  | [] => "nothing"
  | [kind] => kind.description
  | [kind, last] => kind.description ++ " or " ++ last.description
  | kind :: rest => kind.description ++ ", " ++ oneOf rest

/-- The end of a message that has a hint. -/
def hintSuffix : Option String → String
  | none => ""
  | some hint => ". Hint: " ++ hint

/-- The wording of a diagnostic. -/
def message : Diagnostic → String
  | unreadable fault => "I/O error: " ++ fault.message
  | lexical problem span => "Syntax error at " ++ span.text ++ ": " ++ problem
  | unexpectedToken expected actual hint =>
    "Expected " ++ oneOf expected ++ ", but found " ++ actual.describe ++ " at " ++ actual.span.text ++ hintSuffix hint
  | unknownAttribute keyword token => "Unknown attribute \"" ++ keyword ++ "\" at " ++ token.span.text
  | reservedIdentifier name span => "Use of reserved identifier \"" ++ name ++ "\" at " ++ span.text
  | invalidMapKey key =>
    "Invalid key type \"" ++ key.display ++ "\" at " ++ key.span.text ++ ": map keys must be a base type"
  | multipleDefinitions name span => "Multiple definitions for \"" ++ name ++ "\" at " ++ span.text
  | unrecognizedType name usedIn span =>
    "Use of unrecognized type name \"" ++ name ++ "\" in definition of \"" ++ usedIn ++ "\" at " ++ span.text
  | invalidNumber lexeme span => "Invalid integer literal \"" ++ lexeme ++ "\" at " ++ span.text
  | invalidAttribute keyword reason definition span =>
    "Invalid [" ++ keyword ++ "] attribute on \"" ++ definition ++ "\" at " ++ span.text ++ ": " ++ reason
  | missingEndOfFile => "The tokens have no end of file"

/-- The place that a diagnostic is about. -/
def span? : Diagnostic → Option Span
  | unreadable _ => none
  | lexical _ span => some span
  | unexpectedToken _ actual _ => some actual.span
  | unknownAttribute _ token => some token.span
  | reservedIdentifier _ span => some span
  | invalidMapKey key => some key.span
  | multipleDefinitions _ span => some span
  | unrecognizedType _ _ span => some span
  | invalidNumber _ span => some span
  | invalidAttribute _ _ _ span => some span
  | missingEndOfFile => none

theorem span?_eq_none_iff {d : Diagnostic} :
    d.span? = none ↔ (∃ fault, d = unreadable fault) ∨ d = missingEndOfFile := by
  cases d <;> simp [span?]

end Diagnostic

/-! ## Outcomes -/

/-- An outcome that is no problem is a result. -/
theorem exists_of_isOk {ε α : Type} {outcome : Except ε α} (h : outcome.isOk = true) :
    ∃ result, outcome = .ok result := by
  cases outcome with
  | error problem => cases h
  | ok result => exact ⟨result, rfl⟩

/-- What comes of two parts in order comes of the result of the first. -/
theorem exists_of_bind_eq_ok {ε α β : Type} {outcome : Except ε α} {next : α → Except ε β} {b : β}
    (h : outcome >>= next = .ok b) : ∃ a, outcome = .ok a ∧ next a = .ok b := by
  cases outcome with
  | error problem => cases h
  | ok a => exact ⟨a, rfl, h⟩

/-- A result that was changed comes from a result. -/
theorem exists_of_map_eq_ok {ε α β : Type} {f : α → β} {outcome : Except ε α} {b : β} (h : outcome.map f = .ok b) :
    ∃ a, outcome = .ok a ∧ f a = b := by
  cases outcome with
  | error problem => cases h
  | ok a => exact ⟨a, rfl, Except.ok.inj h⟩

/-- A problem is left as it is where results are changed. -/
theorem map_eq_error_iff {ε α β : Type} {f : α → β} {outcome : Except ε α} {problem : ε} :
    outcome.map f = .error problem ↔ outcome = .error problem := by
  cases outcome with
  | error p => simp [Except.map]
  | ok a => simp [Except.map]

/-- A result is left as it is where problems are changed. -/
theorem eq_ok_of_mapError {ε δ α : Type} {f : ε → δ} {outcome : Except ε α} {a : α} (h : outcome.mapError f = .ok a) :
    outcome = .ok a := by
  cases outcome with
  | error problem => cases h
  | ok b => exact congrArg Except.ok (Except.ok.inj h)

end SchemaLang
