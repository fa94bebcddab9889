import SchemaLang.Definition.Reader
import SchemaLang.Schema.References
import SchemaLang.Schema.Validation

/-!
# Reading schemas

* `Progress.ofTokens` reads definitions one after the other, until the end of the file or the first problem, and keeps
  what was read before. A name that is defined already is a problem once its second definition is complete.
* `Schema.ofTokens` reads a schema from tokens: all definitions, and then the check that every type name is defined.
  The first end-of-file token ends the reading; a list that does not end with one gets one (`Token.terminated`).
* `Schema.compile` also checks the payloads of the attributes.
-/

namespace SchemaLang

/-- Tokens with an end of file as the last, at the end of the last token if it has to be added. -/
def Token.terminated (tokens : List Token) : List Token :=
  match tokens.getLast? with
  | none => [endOfFile Span.zero]
  | some last =>
    if last.kind = .endOfFile then tokens
    else tokens ++ [endOfFile (Span.point last.span.file last.span.stop)]

/-- How far the reading of definitions came. -/
structure Progress where
  /-- The definitions read so far. -/
  definitions : List Definition
  /-- The tokens from the cursor on. -/
  rest : List Token
  /-- The problem that ended the reading, if it was not the end of the file. -/
  problem : Option Diagnostic
  deriving DecidableEq

namespace Progress

/-- At most `n` more definitions. -/
def upTo : Nat → List Definition → List Token → Progress
  | 0, before, ts => ⟨before, ts, some .missingEndOfFile⟩
  | n + 1, before, ts =>
    match Definition.read? ts with
    | .failed problem rest => ⟨before, rest, some problem⟩
    | .done none rest => ⟨before, rest, none⟩
    | .done (some (name, d)) rest =>
      if before.any fun e => e.name = d.name then ⟨before, rest, some (.multipleDefinitions d.name name.span)⟩
      else upTo n (Definition.insert d before) rest

/-- Definitions come one after the other, as each has a new name. -/
theorem upTo_succ (n : Nat) (before : List Definition) (ts : List Token) :
    upTo (n + 1) before ts = match Definition.read? ts with
      | .failed problem rest => ⟨before, rest, some problem⟩
      | .done none rest => ⟨before, rest, none⟩
      | .done (some (name, d)) rest =>
        if before.any fun e => e.name = d.name then ⟨before, rest, some (.multipleDefinitions d.name name.span)⟩
        else upTo n (before ++ [d]) rest := by
  rw [upTo]
  split
  · rfl
  · rfl
  · split
    · rfl
    · rename_i d _ _ hnew
      rw [Definition.insert_of_new (Bool.eq_false_iff.2 hnew)]

/-- The definitions at the front of a token list, up to the end of the file or the first problem. -/
def ofTokens (ts : List Token) : Progress := upTo (ts.length + 1) [] ts

/-- The schema of a finished reading whose type names are all defined. -/
def finish (p : Progress) (ns : String) : Except Diagnostic Schema :=
  match p.problem with
  | some problem => .error problem
  | none => (Definition.resolve p.definitions).map fun _ => ⟨ns, p.definitions⟩

end Progress

namespace Schema

/-- The schema that tokens describe. Attributes may have any payload. -/
def ofTokens (tokens : List Token) (ns : String) : Except Diagnostic Schema :=
  (Progress.ofTokens (Token.terminated tokens)).finish ns

/-- A schema if the payloads of its attributes are valid. -/
def validated (s : Schema) : Except Diagnostic Schema := (Definition.validate s.definitions).map fun _ => s

/-- The schema that tokens describe, with valid attributes. -/
def compile (tokens : List Token) (ns : String) : Except Diagnostic Schema := do
  let s ← ofTokens tokens ns
  s.validated

end Schema

end SchemaLang
