/-!
# Separated text

Text cut at every occurrence of one character, and pieces joined again.

* `pieces` cuts; it gives one piece more than there are separators (`length_pieces`), and none contains the separator
  (`not_mem_of_mem_pieces`).
* `join` puts a text between neighbouring pieces; joining the pieces with the separator gives the text back
  (`join_pieces`).
-/

namespace SchemaLang.Text

/-- The stretches of text between the occurrences of a separator. -/
def pieces (sep : Char) : List Char → List (List Char)
  | [] => [[]]
  | c :: s =>
    if c = sep then [] :: pieces sep s
    else match pieces sep s with
      | [] => [[c]]
      | p :: ps => (c :: p) :: ps

/-- The pieces in order with a text between neighbours. -/
def join (between : List Char) : List (List Char) → List Char
  | [] => []
  | [p] => p
  | p :: q :: ps => p ++ between ++ join between (q :: ps)

theorem pieces_ne_nil (sep : Char) : ∀ s : List Char, pieces sep s ≠ []
  | [] => by simp [pieces]
  | c :: s => by
    rw [pieces]
    split
    · simp
    · split <;> simp

theorem not_mem_of_mem_pieces {sep : Char} {s p : List Char} (h : p ∈ pieces sep s) : sep ∉ p := by
  fun_induction pieces sep s generalizing p with
  | case1 => simp_all
  | case2 s ih =>
    rcases List.mem_cons.1 h with rfl | h
    · simp
    · exact ih h
  | case3 c s _ hs _ => exact absurd hs (pieces_ne_nil sep s)
  | case4 c s hc q qs hs ih =>
    rw [hs] at ih
    rcases List.mem_cons.1 h with rfl | h
    · simp only [List.mem_cons, not_or]
      exact ⟨fun he => hc he.symm, ih (by simp)⟩
    · exact ih (by simp [h])

theorem pieces_of_not_mem {sep : Char} {p : List Char} (h : sep ∉ p) : pieces sep p = [p] := by
  induction p with
  | nil => rfl
  | cons c p ih =>
    obtain ⟨hc, hp⟩ := List.ne_and_not_mem_of_not_mem_cons h
    rw [pieces, if_neg (Ne.symm hc), ih hp]

theorem length_pieces (sep : Char) (s : List Char) : (pieces sep s).length = s.count sep + 1 := by
  fun_induction pieces sep s with
  | case1 => rfl
  | case2 s ih => simp [ih]
  | case3 c s _ hs _ => exact absurd hs (pieces_ne_nil sep s)
  | case4 c s hc q qs hs ih =>
    rw [List.count_cons_of_ne hc, ← ih, hs]
    rfl

/-- A character in front of a separator has no effect on the last piece. -/
theorem getLast?_pieces_cons {sep : Char} {s : List Char} (h : sep ∈ s) (c : Char) :
    (pieces sep (c :: s)).getLast? = (pieces sep s).getLast? := by
  have hlength := length_pieces sep s
  have hcount := List.count_pos_iff.2 h
  cases hs : pieces sep s with
  | nil => exact absurd hs (pieces_ne_nil sep s)
  | cons q qs =>
    cases qs with
    | nil =>
      rw [hs, List.length_singleton] at hlength
      omega
    | cons r rs =>
      rw [pieces]
      split <;> simp [hs]

/-- Joining the pieces with the separator restores the text. -/
theorem join_pieces (sep : Char) (s : List Char) : join [sep] (pieces sep s) = s := by
  fun_induction pieces sep s with
  | case1 => rfl
  | case2 s ih =>
    cases hs : pieces sep s with
    | nil => exact absurd hs (pieces_ne_nil sep s)
    | cons q qs => rw [hs] at ih; simp [join, ih]
  | case3 c s _ hs _ => exact absurd hs (pieces_ne_nil sep s)
  | case4 c s _ q qs hs ih =>
    rw [hs] at ih
    cases qs with
    | nil => simp_all [join]
    | cons r rs => simp_all [join]

end SchemaLang.Text
