import SchemaLang.Text.Numeral

/-!
# Positions and spans

A position is a place between two characters of a text, a span a stretch of text of one source.

* `Position.advance` moves over text: the offset counts UTF-8 bytes from zero, lines and columns count from one, columns
  count bytes, and only a line feed ends a line. Moving over two texts one after the other is moving over their
  concatenation (`Position.advance_append`).
* `Span.combine` covers two spans. It compares offsets and copies whole positions, and keeps the source of the first.
-/

namespace SchemaLang

/-- A place in a text. -/
structure Position where
  /-- The bytes of the text before the place. -/
  offset : Nat
  /-- The number of the line, from one. -/
  line : Nat
  /-- One more than the bytes of the line before the place. -/
  column : Nat
  deriving DecidableEq

namespace Position

/-- The place before the first character of a text. -/
def start : Position := ⟨0, 1, 1⟩

/-- The position of what has no source. -/
def zero : Position := ⟨0, 0, 0⟩

/-- The place after one more character. -/
def step (p : Position) (c : Char) : Position :=
  if c = '\n' then ⟨p.offset + c.utf8Size, p.line + 1, 1⟩
  else ⟨p.offset + c.utf8Size, p.line, p.column + c.utf8Size⟩

/-- The place after more text. -/
def advance (p : Position) (s : List Char) : Position := s.foldl step p

@[simp] theorem advance_nil (p : Position) : p.advance [] = p := rfl

@[simp] theorem advance_cons (p : Position) (c : Char) (s : List Char) :
    p.advance (c :: s) = (p.step c).advance s := rfl

theorem advance_append (p : Position) (s t : List Char) : p.advance (s ++ t) = (p.advance s).advance t :=
  List.foldl_append

end Position

/-- A stretch of text of the source with number `file`. -/
structure Span where
  file : Nat
  start : Position
  stop : Position
  deriving DecidableEq

namespace Span

/-- The span of what has no source. -/
def zero : Span := ⟨0, Position.zero, Position.zero⟩

/-- The empty span at a place. -/
def point (file : Nat) (p : Position) : Span := ⟨file, p, p⟩

/-- The span from the earlier start to the later end of two spans; of equal offsets the first span's position stays. -/
def combine (a b : Span) : Span where
  file := a.file
  start := if b.start.offset < a.start.offset then b.start else a.start
  stop := if a.stop.offset < b.stop.offset then b.stop else a.stop

/-- The running results of combining a span with each of a list of spans. -/
def combineAll (a : Span) : List Span → List Span
  | [] => [a]
  | b :: rest => a :: combineAll (a.combine b) rest

/-- The place a message names: line and column of the start. -/
def text (s : Span) : String := String.ofList (Text.decimal s.start.line ++ ':' :: Text.decimal s.start.column)

end Span

end SchemaLang
