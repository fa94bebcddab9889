/-!
# Quoted text

The JSON string literal of a text, in double quotes.

* `escape` gives the written form of one character: a short escape for the quote, the backslash and five control
  characters, `\u00xx` for the other characters below U+0020, and the character itself otherwise.
* `quote` writes a whole text; no character of it is a control character (`quote_not_control`), so a quoted text stays
  on one line.
-/

namespace SchemaLang.Text

/-- The written form of one character inside a quoted text. -/
def escape (c : Char) : List Char :=
  if c = '"' then ['\\', '"']
  else if c = '\\' then ['\\', '\\']
  else if c = '\x08' then ['\\', 'b']
  else if c = '\x0c' then ['\\', 'f']
  else if c = '\n' then ['\\', 'n']
  else if c = '\r' then ['\\', 'r']
  else if c = '\t' then ['\\', 't']
  else if c.toNat < 0x20 then ['\\', 'u', '0', '0', Nat.digitChar (c.toNat / 16), Nat.digitChar (c.toNat % 16)]
  else [c]

/-- The characters of a quoted text. -/
def quoteChars (s : List Char) : List Char := '"' :: s.flatMap escape ++ ['"']

/-- A text as a double-quoted, escaped literal. -/
def quote (s : String) : String := String.ofList (quoteChars s.toList)

/-! ## A quoted text has no control characters -/

theorem digitChar_not_control : ∀ n : Fin 16, 0x20 ≤ (Nat.digitChar n).toNat := by decide

theorem escape_not_control {c d : Char} (h : d ∈ escape c) : 0x20 ≤ d.toNat := by
  unfold escape at h
  repeat' split at h
  case isFalse.isFalse.isFalse.isFalse.isFalse.isFalse.isFalse.isTrue hc =>
    simp only [List.mem_cons, List.not_mem_nil, or_false] at h
    rcases h with rfl | rfl | rfl | rfl | rfl | rfl
    · decide
    · decide
    · decide
    · decide
    · exact digitChar_not_control ⟨c.toNat / 16, by omega⟩
    · exact digitChar_not_control ⟨c.toNat % 16, by omega⟩
  case isFalse.isFalse.isFalse.isFalse.isFalse.isFalse.isFalse.isFalse hc =>
    simp only [List.mem_cons, List.not_mem_nil, or_false] at h
    subst h
    omega
  all_goals
    simp only [List.mem_cons, List.not_mem_nil, or_false] at h
    rcases h with rfl | rfl <;> decide

/-- No character of a quoted text is a control character below U+0020. -/
theorem quote_not_control {s : String} {d : Char} (h : d ∈ (quote s).toList) : 0x20 ≤ d.toNat := by
  simp only [quote, quoteChars, String.toList_ofList, List.cons_append, List.mem_cons, List.mem_append,
    List.mem_flatMap, List.not_mem_nil, or_false] at h
  rcases h with rfl | ⟨c, _, hd⟩ | rfl
  · decide
  · exact escape_not_control hd
  · decide

end SchemaLang.Text
