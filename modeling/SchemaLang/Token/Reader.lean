import SchemaLang.Diagnostic

/-!
# Readers

A reader takes a construct of the grammar from the front of a token list. It gives its value and the tokens after it, or
a diagnostic and the tokens from the one under the cursor on.

* The primitive readers look at one token (`current`, `eat?`, `take`) or at a run of comments (`skipComments`,
  `lastComment`). Looking at a token where none is left fails with `Diagnostic.missingEndOfFile`.
* `expect` skips comments before the token it wants; `eat?` and `take` do not.
* `many` repeats a reader until it gives nothing. Its bound, one more than the number of tokens, is never reached by a
  reader that takes a token with each item.
* What is read may be noted on the way. `Noting` says what a reader with notes can do; types, fields and definitions are
  read in any such reader, and those that note nothing are among them.
-/

namespace SchemaLang

/-- What a reader makes of a token list. -/
inductive Reading (α : Type) where
  /-- A value, and the tokens after it. -/
  | done (value : α) (rest : List Token)
  /-- A problem, and the tokens from the cursor on. -/
  | failed (problem : Diagnostic) (rest : List Token)

/-- A way to read a construct from the front of a token list. -/
def TokenReader (α : Type) : Type := List Token → Reading α

namespace TokenReader

variable {α β : Type}

instance : Monad TokenReader where
  pure a := fun ts => .done a ts
  bind read next := fun ts =>
    match read ts with
    | .done a rest => next a rest
    | .failed problem rest => .failed problem rest

theorem pure_apply (a : α) (ts : List Token) : (pure a : TokenReader α) ts = .done a ts := rfl

theorem bind_apply (read : TokenReader α) (next : α → TokenReader β) (ts : List Token) :
    (read >>= next) ts = match read ts with
      | .done a rest => next a rest
      | .failed problem rest => .failed problem rest := rfl

/-- A reader is lifted to itself. -/
@[simp]
theorem liftM_eq (read : TokenReader α) : (liftM read : TokenReader α) = read := rfl

/-- Stop with a problem. -/
def fail (problem : Diagnostic) : TokenReader α := fun ts => .failed problem ts

/-- The token under the cursor. -/
def current : TokenReader Token
  | [] => .failed .missingEndOfFile []
  | t :: ts => .done t (t :: ts)

/-- Move past the token under the cursor. -/
def advance : TokenReader Unit
  | [] => .failed .missingEndOfFile []
  | _ :: ts => .done () ts

/-- The token under the cursor if it has the kind, and then move past it. -/
def eat? (kind : TokenKind) : TokenReader (Option Token)
  | [] => .failed .missingEndOfFile []
  | t :: ts => if t.kind = kind then .done (some t) ts else .done none (t :: ts)

/-- The token under the cursor, which has to be of one of the kinds, and then move past it. -/
def take (kinds : List TokenKind) (hint : Option String) : TokenReader Token
  | [] => .failed .missingEndOfFile []
  | t :: ts =>
    if kinds.contains t.kind then .done t ts else .failed (.unexpectedToken kinds t hint) (t :: ts)

/-- Move past the comments under the cursor. -/
def skipComments : TokenReader Unit := fun ts => .done () (ts.dropWhile Token.isComment)

/-- Move past the comments under the cursor, and give the text of the last one. -/
def lastComment : TokenReader String := fun ts =>
  .done ((ts.takeWhile Token.isComment).getLast?.elim "" Token.lexeme) (ts.dropWhile Token.isComment)

/-- The next token that is no comment, which has to be of the kind. -/
def expect (kind : TokenKind) (hint : Option String) : TokenReader Token := do
  skipComments
  take [kind] hint

/-- The number of tokens from the cursor on. -/
def remaining : TokenReader Nat := fun ts => .done ts.length ts

/-- At most `n` items. -/
def manyUpTo {m : Type → Type} [Monad m] [MonadLiftT TokenReader m] (item? : m (Option α)) : Nat → m (List α)
  | 0 => fail .missingEndOfFile
  | n + 1 => do
    match ← item? with
    | none => return []
    | some a => return a :: (← manyUpTo item? n)

/-- The items that a reader gives until it gives none. -/
def many {m : Type → Type} [Monad m] [MonadLiftT TokenReader m] (item? : m (Option α)) : m (List α) := do
  manyUpTo item? ((← remaining) + 1)

theorem many_apply (item? : TokenReader (Option α)) (ts : List Token) :
    many item? ts = manyUpTo item? (ts.length + 1) ts := rfl

end TokenReader

/-- A monad in which names that are read as types can be noted. -/
class Noting (m : Type → Type) where
  /-- Note that a name token is read as a type. -/
  typeName (name : Token) : m Unit
  /-- Read something in the definition with a name token. -/
  inDefinition {α : Type} (owner : Token) (read : m α) : m α

/-- Readers by themselves note nothing. -/
instance : Noting TokenReader where
  typeName _ := pure ()
  inDefinition _ read := read

end SchemaLang
