/-!
# Patterns

Patterns of text, and the search for text that matches them.

* `Pattern.run` goes through the ways to match the front of a text, in the order of preference, until a text behind a
  match is accepted. Of two alternatives the first is preferred. A greedy repetition goes on as long as it can before it
  stops, a lazy one stops before it goes on.
* `Pattern.match?` takes the preferred way at the front of a text, and `Pattern.find?` does at the leftmost place where
  there is one.
-/

namespace SchemaLang.Text

/-- A pattern of text. What is repeated matches at least one character. -/
inductive Pattern where
  | char (allowed : Char → Bool)
  | seq (first second : Pattern)
  | either (first second : Pattern)
  | many (greedy : Bool) (body : Pattern)

namespace Pattern

/-- The pattern of one character. -/
def only (c : Char) : Pattern := char fun d => d = c

/-- One character or more of a class, as many as there are. -/
def many1 (allowed : Char → Bool) : Pattern := seq (char allowed) (many true (char allowed))

/-- The ways to match a pattern at the front of a text, up to the first that leads on. -/
abbrev Way : Type := List Char → (List Char → Option (List Char)) → Option (List Char)

/-- At most `n` repetitions of a way. -/
def repeatUpTo (greedy : Bool) (body : Way) : Nat → Way
  | 0, s, next => next s
  | n + 1, s, next =>
    if greedy then body s (fun rest => repeatUpTo greedy body n rest next) <|> next s
    else next s <|> body s fun rest => repeatUpTo greedy body n rest next

/-- What the first way to match the front of a text leads to, given what the text behind a match leads to. There are no
more repetitions than characters. -/
def run : Pattern → Way
  | char allowed, s, next =>
    match s with
    | [] => none
    | c :: rest => if allowed c then next rest else none
  | seq first second, s, next => first.run s fun rest => second.run rest next
  | either first second, s, next => first.run s next <|> second.run s next
  | many greedy body, s, next => repeatUpTo greedy body.run s.length s next

/-- The text behind the preferred match at the front of a text. -/
def match? (p : Pattern) (s : List Char) : Option (List Char) := p.run s some

/-- Whether some match is a whole text. -/
def isWhole (p : Pattern) (s : List Char) : Bool := (p.run s fun rest => if rest = [] then some rest else none).isSome

/-- The leftmost match in a text: the text in front of it, the match, and the text behind it. -/
def find? (p : Pattern) : List Char → Option (List Char × List Char × List Char)
  | [] => (p.match? []).map fun rest => ([], [], rest)
  | c :: s =>
    match p.match? (c :: s) with
    | some rest => some ([], (c :: s).take ((c :: s).length - rest.length), rest)
    | none => (find? p s).map fun found => (c :: found.1, found.2)

end Pattern

end SchemaLang.Text
