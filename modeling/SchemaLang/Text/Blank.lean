/-!
# Blank characters

The characters with the Unicode property `White_Space`, and text without them at its two ends.

* `isBlank` is the property, as a table of code points.
* `trim` removes the longest blank run at each end (`trim_of_all_blank`: a blank text becomes empty).
-/

namespace SchemaLang.Text

/-- The code points of the Unicode property `White_Space`, in ascending order. -/
def blankCodes : List Nat :=
  [0x09, 0x0A, 0x0B, 0x0C, 0x0D, 0x20, 0x85, 0xA0, 0x1680,
   0x2000, 0x2001, 0x2002, 0x2003, 0x2004, 0x2005, 0x2006, 0x2007, 0x2008, 0x2009, 0x200A,
   0x2028, 0x2029, 0x202F, 0x205F, 0x3000]

/-- White space in the Unicode sense. -/
def isBlank (c : Char) : Bool := blankCodes.contains c.toNat

/-- Every character that is white space in the ASCII sense is blank. -/
theorem isBlank_of_isWhitespace {c : Char} (h : c.isWhitespace = true) : isBlank c = true := by
  simp only [Char.isWhitespace, Bool.or_eq_true, decide_eq_true_eq] at h
  rcases h with ((rfl | rfl) | rfl) | rfl <;> decide

/-- The text after its leading blanks. -/
def trimStart (s : List Char) : List Char := s.dropWhile isBlank

/-- The text without the blanks at its two ends. -/
def trim (s : List Char) : List Char := (trimStart (trimStart s).reverse).reverse

theorem trimStart_of_all_blank : ∀ {s : List Char}, (∀ c ∈ s, isBlank c = true) → trimStart s = []
  | [], _ => rfl
  | c :: s, h => by
    have hc : isBlank c = true := h c (by simp)
    rw [trimStart, List.dropWhile_cons, if_pos hc]
    exact trimStart_of_all_blank fun d hd => h d (by simp [hd])

/-- A text of blanks trims to nothing. -/
theorem trim_of_all_blank {s : List Char} (h : ∀ c ∈ s, isBlank c = true) : trim s = [] := by
  rw [trim, trimStart_of_all_blank h]; rfl

end SchemaLang.Text
