import SchemaLang.Json

/-!
# Reading JSON

A reader for JSON documents with whole numbers, and what it makes of written documents.

* `Json.read?` reads a document with any white space between its parts. Objects keep their members in order, also those
  that repeat a key. All escapes are read: the short ones and four hexadecimal digits, two times for a pair of
  surrogates. A fraction or an exponent is not read.
* A written string or value is read as what it was, whatever follows it (`Json.readString?_quoted`,
  `Json.readValue_write`). Only a written number must have no digit behind it (`Json.readNumber?_signedDecimal`).
* So a written document is read as the value that it was written from (`Json.read?_pretty`).
-/

namespace SchemaLang.Json

/-! ## Reading -/

/-- The white space between the parts of a document. -/
def isSpace (c : Char) : Bool := c = ' ' || c = '\t' || c = '\n' || c = '\r'

/-- A text behind its white space. -/
def skipSpace (s : List Char) : List Char := s.dropWhile isSpace

/-- The characters that a backslash and one more character stand for. -/
def escapes : List (Char × Char) :=
  [('"', '"'), ('\\', '\\'), ('/', '/'), ('b', '\x08'), ('f', '\x0c'), ('n', '\n'), ('r', '\r'), ('t', '\t')]

/-- The value of a hexadecimal digit. -/
def hexValue? (c : Char) : Option Nat :=
  if '0' ≤ c ∧ c ≤ '9' then some (c.toNat - '0'.toNat)
  else if 'a' ≤ c ∧ c ≤ 'f' then some (c.toNat - 'a'.toNat + 10)
  else if 'A' ≤ c ∧ c ≤ 'F' then some (c.toNat - 'A'.toNat + 10)
  else none

/-- The number that four hexadecimal digits write. -/
def readUnit? : List Char → Option (Nat × List Char)
  | a :: b :: c :: d :: s => do
    let digits := 4096 * (← hexValue? a) + 256 * (← hexValue? b) + 16 * (← hexValue? c) + (← hexValue? d)
    return (digits, s)
  | _ => none

/-- The character that one number, or two numbers for a pair of surrogates, stand for. -/
def readCodePoint? (s : List Char) : Option (Char × List Char) := do
  let (high, s) ← readUnit? s
  if high < 0xD800 ∨ 0xE000 ≤ high then return (Char.ofNat high, s)
  else match s with
    | '\\' :: 'u' :: s =>
      let (low, s) ← readUnit? s
      if high < 0xDC00 ∧ 0xDC00 ≤ low ∧ low < 0xE000 then
        return (Char.ofNat (0x10000 + 0x400 * (high - 0xD800) + (low - 0xDC00)), s)
      else none
    | _ => none

/-- One character inside a string. -/
def readChar? : List Char → Option (Char × List Char)
  | [] => none
  | '\\' :: 'u' :: s => readCodePoint? s
  | '\\' :: c :: s => (escapes.lookup c).map fun d => (d, s)
  | c :: s => if c = '\\' ∨ c = '"' ∨ c.toNat < 0x20 then none else some (c, s)

/-- At most `n` characters of a string, its closing quote among them. -/
def readCharsUpTo : Nat → List Char → Option (List Char × List Char)
  | 0, _ => none
  | _ + 1, '"' :: s => some ([], s)
  | n + 1, s => do
    let (c, s) ← readChar? s
    let (cs, s) ← readCharsUpTo n s
    return (c :: cs, s)

/-- A string behind its opening quote. -/
def readString? (s : List Char) : Option (String × List Char) :=
  (readCharsUpTo (s.length + 1) s).map fun p => (String.ofList p.1, p.2)

/-- A number without a sign. A zero stands in front of no other digit. -/
def readNatural? (s : List Char) : Option (Nat × List Char) :=
  let digits := s.takeWhile Char.isDigit
  if digits = [] ∨ (digits.head? = some '0' ∧ digits ≠ ['0']) then none
  else some (Text.digitsValue digits, s.dropWhile Char.isDigit)

/-- A number with a minus sign or without a sign. -/
def readNumber? : List Char → Option (Int × List Char)
  | '-' :: s => (readNatural? s).map fun p => (-Int.ofNat p.1, p.2)
  | s => (readNatural? s).map fun p => (Int.ofNat p.1, p.2)

/-- A value that is written as a word. -/
def readWord? (word : List Char) (value : Json) (s : List Char) : Option (Json × List Char) :=
  if word.isPrefixOf s then some (value, s.drop word.length) else none

/-- A value that has no other values in it and is no string. -/
def readScalar? (s : List Char) : Option (Json × List Char) :=
  readWord? ['n', 'u', 'l', 'l'] null s <|> readWord? ['t', 'r', 'u', 'e'] (bool true) s <|>
    readWord? ['f', 'a', 'l', 's', 'e'] (bool false) s <|> (readNumber? s).map fun p => (number p.1, p.2)

mutual

/-- A value behind white space, if it is no deeper than a bound. -/
def readValue : Nat → List Char → Option (Json × List Char)
  | 0, _ => none
  | n + 1, s =>
    match skipSpace s with
    | '"' :: s => (readString? s).map fun p => (string p.1, p.2)
    | '[' :: s =>
      match skipSpace s with
      | ']' :: s => some (array [], s)
      | s => (readItems n s).map fun p => (array p.1, p.2)
    | '\x7b' :: s =>
      match skipSpace s with
      | '\x7d' :: s => some (object [], s)
      | s => (readMembers n s).map fun p => (object p.1, p.2)
    | s => readScalar? s

/-- One item or more, and the closing bracket behind them. -/
def readItems : Nat → List Char → Option (List Json × List Char)
  | 0, _ => none
  | n + 1, s => do
    let (item, s) ← readValue n s
    match skipSpace s with
    | ']' :: s => return ([item], s)
    | ',' :: s =>
      let (items, s) ← readItems n s
      return (item :: items, s)
    | _ => none

/-- One member or more, and the closing brace behind them. -/
def readMembers : Nat → List Char → Option (List (String × Json) × List Char)
  | 0, _ => none
  | n + 1, s =>
    match skipSpace s with
    | '"' :: s => do
      let (key, s) ← readString? s
      match skipSpace s with
      | ':' :: s =>
        let (value, s) ← readValue n s
        match skipSpace s with
        | '\x7d' :: s => return ([(key, value)], s)
        | ',' :: s =>
          let (members, s) ← readMembers n s
          return ((key, value) :: members, s)
        | _ => none
      | _ => none
    | _ => none

end

/-- The value of a document. Behind it there may only be white space. -/
def read? (text : String) : Option Json := do
  let (value, rest) ← readValue (text.toList.length + 1) text.toList
  if skipSpace rest = [] then some value else none

/-! ## White space -/

theorem skipSpace_cons {c : Char} (h : isSpace c = false) (s : List Char) : skipSpace (c :: s) = c :: s := by
  simp [skipSpace, h]

theorem skipSpace_skipSpace (s : List Char) : skipSpace (skipSpace s) = skipSpace s := by
  cases h : skipSpace s with
  | nil => rfl
  | cons c t =>
    have hc := List.head?_dropWhile_not isSpace s
    rw [skipSpace] at h
    rw [h] at hc
    exact skipSpace_cons hc t

theorem skipSpace_newLine (depth : Nat) (s : List Char) : skipSpace (newLine depth ++ s) = skipSpace s := by
  have hblanks : ∀ n : Nat, skipSpace (List.replicate n ' ' ++ s) = skipSpace s := by
    intro n
    induction n with
    | zero => rfl
    | succ n ih => exact ih
  exact hblanks (2 * depth)

theorem skipSpace_newLine_cons (depth : Nat) {c : Char} (h : isSpace c = false) (s : List Char) :
    skipSpace (newLine depth ++ c :: s) = c :: s := by
  rw [skipSpace_newLine, skipSpace_cons h]

theorem length_newLine (depth : Nat) : (newLine depth).length = 2 * depth + 1 := by
  simp [newLine]

/-- White space in front of a value makes no difference. -/
theorem readValue_skipSpace (n : Nat) (s : List Char) : readValue n (skipSpace s) = readValue n s := by
  cases n with
  | zero => rw [readValue, readValue]
  | succ n => rw [readValue, readValue, skipSpace_skipSpace]

theorem readItems_skipSpace (n : Nat) (s : List Char) : readItems n (skipSpace s) = readItems n s := by
  cases n with
  | zero => rw [readItems, readItems]
  | succ n => rw [readItems, readItems, readValue_skipSpace]

theorem readMembers_skipSpace (n : Nat) (s : List Char) : readMembers n (skipSpace s) = readMembers n s := by
  cases n with
  | zero => rw [readMembers, readMembers]
  | succ n => rw [readMembers, readMembers, skipSpace_skipSpace]

/-! ## Written strings -/

theorem hexValue?_digitChar : ∀ n : Fin 16, hexValue? (Nat.digitChar n) = some n.val := by decide

/-- The escape of a control character is read as this character. -/
theorem readCodePoint?_control {c : Char} (h : c.toNat < 0x20) (rest : List Char) :
    readCodePoint? ('0' :: '0' :: Nat.digitChar (c.toNat / 16) :: Nat.digitChar (c.toNat % 16) :: rest) =
      some (c, rest) := by
  have hzero : hexValue? '0' = some 0 := by decide
  have hhigh := hexValue?_digitChar ⟨c.toNat / 16, by omega⟩
  have hlow := hexValue?_digitChar ⟨c.toNat % 16, by omega⟩
  have hsum : 16 * (c.toNat / 16) + c.toNat % 16 = c.toNat := Nat.div_add_mod c.toNat 16
  have hunit : readUnit? ('0' :: '0' :: Nat.digitChar (c.toNat / 16) :: Nat.digitChar (c.toNat % 16) :: rest) =
      some (c.toNat, rest) := by
    simp [readUnit?, hzero, hhigh, hlow, hsum]
  simp [readCodePoint?, hunit, show c.toNat < 0xD800 by omega]

/-- The written form of a character is read as this character. -/
theorem readChar?_escape (c : Char) (rest : List Char) : readChar? (Text.escape c ++ rest) = some (c, rest) := by
  unfold Text.escape
  repeat' split
  case isFalse.isFalse.isFalse.isFalse.isFalse.isFalse.isFalse.isTrue hc => exact readCodePoint?_control hc rest
  case isFalse.isFalse.isFalse.isFalse.isFalse.isFalse.isFalse.isFalse hc =>
    rw [List.singleton_append, readChar?.eq_def]
    split <;> simp_all
  all_goals
    rename_i hc
    subst hc
    rfl

/-- No written form of a character looks like the end of a string. -/
theorem escape_append_ne_quote (c : Char) (rest s : List Char) : Text.escape c ++ rest ≠ '"' :: s := by
  intro h
  have hread := readChar?_escape c rest
  rw [h] at hread
  simp [readChar?] at hread

theorem readCharsUpTo_escape (s rest : List Char) (n : Nat) :
    readCharsUpTo (s.length + n + 1) (s.flatMap Text.escape ++ '"' :: rest) = some (s, rest) := by
  induction s with
  | nil => simp [readCharsUpTo]
  | cons c s ih =>
    have hlength : (c :: s).length + n + 1 = s.length + n + 1 + 1 := by simp; omega
    rw [List.flatMap_cons, List.append_assoc, hlength, readCharsUpTo, readChar?_escape]
    · simp [ih]
    · exact escape_append_ne_quote c _

theorem length_le_length_flatMap_escape (s : List Char) : s.length ≤ (s.flatMap Text.escape).length := by
  induction s with
  | nil => simp
  | cons c s ih =>
    have hc : 1 ≤ (Text.escape c).length := by
      unfold Text.escape
      repeat' split
      all_goals simp
    simp only [List.flatMap_cons, List.length_append, List.length_cons]
    omega

/-- A quoted text is read as the text, whatever follows it. -/
theorem readString?_quoted (s : String) (rest : List Char) :
    readString? (s.toList.flatMap Text.escape ++ '"' :: rest) = some (s, rest) := by
  obtain ⟨n, hn⟩ := Nat.exists_eq_add_of_le (length_le_length_flatMap_escape s.toList)
  have hlength : (s.toList.flatMap Text.escape ++ '"' :: rest).length + 1 =
      s.toList.length + (n + rest.length + 1) + 1 := by
    simp only [List.length_append, List.length_cons, hn]
    omega
  rw [readString?, hlength, readCharsUpTo_escape]
  simp

/-! ## Written numbers -/

/-- A text that does not go on with a digit. -/
def EndsNumber (rest : List Char) : Prop := ∀ c ∈ rest.head?, c.isDigit = false

theorem endsNumber_cons {c : Char} (h : c.isDigit = false) (s : List Char) : EndsNumber (c :: s) := by
  simpa [EndsNumber] using h

theorem exists_decimal_eq_cons (n : Nat) : ∃ d t, Text.decimal n = d :: t ∧ d.isDigit = true := by
  obtain ⟨d, t, h⟩ := List.exists_cons_of_ne_nil (Nat.toDigits_ne_nil : Text.decimal n ≠ [])
  exact ⟨d, t, h, Text.isDigit_of_mem_decimal (h ▸ List.mem_cons_self)⟩

theorem readNatural?_decimal (n : Nat) {rest : List Char} (h : EndsNumber rest) :
    readNatural? (Text.decimal n ++ rest) = some (n, rest) := by
  have hdigits : ∀ c ∈ Text.decimal n, c.isDigit = true := fun c hc => Text.isDigit_of_mem_decimal hc
  have htake : rest.takeWhile Char.isDigit = [] := by
    cases rest with
    | nil => rfl
    | cons c s => simp [h c rfl]
  have hdrop : rest.dropWhile Char.isDigit = rest := by
    cases rest with
    | nil => rfl
    | cons c s => simp [h c rfl]
  have hzero : ¬ (Text.decimal n = [] ∨ ((Text.decimal n).head? = some '0' ∧ Text.decimal n ≠ ['0'])) := by
    rintro (hnil | ⟨hhead, hne⟩)
    · exact Nat.toDigits_ne_nil hnil
    · obtain ⟨s, hs⟩ := List.head?_eq_some_iff.1 hhead
      exact hne (by rw [hs, Text.eq_nil_of_decimal_eq hs])
  rw [readNatural?, List.takeWhile_append_of_pos hdigits, List.dropWhile_append_of_pos hdigits, htake, hdrop,
    List.append_nil, if_neg hzero, Text.digitsValue_decimal]

/-- A written number is read as itself in front of anything but a digit. -/
theorem readNumber?_signedDecimal (n : Int) {rest : List Char} (h : EndsNumber rest) :
    readNumber? (Text.signedDecimal n ++ rest) = some (n, rest) := by
  cases n with
  | ofNat n =>
    have hminus : ∀ s, Text.decimal n ++ rest = '-' :: s → False := by
      obtain ⟨d, t, hd, hdigit⟩ := exists_decimal_eq_cons n
      intro s hs
      rw [hd] at hs
      rw [(List.cons.inj hs).1] at hdigit
      contradiction
    rw [Text.signedDecimal, readNumber?, readNatural?_decimal n h]
    · rfl
    · exact hminus
  | negSucc n =>
    rw [Text.signedDecimal, List.cons_append, readNumber?, readNatural?_decimal _ h]
    rfl

/-! ## Written values -/

theorem exists_signedDecimal_eq_cons (n : Int) :
    ∃ c t, Text.signedDecimal n = c :: t ∧ (c = '-' ∨ c.isDigit = true) := by
  cases n with
  | ofNat n =>
    obtain ⟨d, t, hd, hdigit⟩ := exists_decimal_eq_cons n
    exact ⟨d, t, hd, .inr hdigit⟩
  | negSucc n => exact ⟨'-', _, rfl, .inl rfl⟩

/-- A number starts differently from all else. -/
theorem ne_of_startsNumber {c d : Char} (hc : c = '-' ∨ c.isDigit = true) (hd : ¬ (d = '-' ∨ d.isDigit = true)) :
    c ≠ d := by
  rintro rfl
  exact hd hc

/-- A value starts neither with white space nor with a closing bracket or brace. -/
def StartsValue (s : List Char) : Prop := ∃ c t, s = c :: t ∧ isSpace c = false ∧ c ≠ ']' ∧ c ≠ '\x7d'

theorem startsValue_signedDecimal (n : Int) : StartsValue (Text.signedDecimal n) := by
  obtain ⟨c, t, ht, hc⟩ := exists_signedDecimal_eq_cons n
  refine ⟨c, t, ht, ?_, ne_of_startsNumber hc (by decide), ne_of_startsNumber hc (by decide)⟩
  refine Bool.eq_false_iff.2 fun hspace => ?_
  simp only [isSpace, Bool.or_eq_true, decide_eq_true_eq] at hspace
  rcases hspace with ((rfl | rfl) | rfl) | rfl <;> revert hc <;> decide

theorem startsValue_write (depth : Nat) (v : Json) : StartsValue (write depth v) := by
  cases v with
  | null => exact ⟨'n', _, rfl, by decide⟩
  | bool value => cases value <;> exact ⟨_, _, rfl, by decide⟩
  | number value => exact startsValue_signedDecimal value
  | string value => exact ⟨'"', _, rfl, by decide⟩
  | array items => cases items <;> exact ⟨'[', _, rfl, by decide⟩
  | object members => cases members <;> exact ⟨'\x7b', _, rfl, by decide⟩

theorem readScalar?_number (n : Int) {rest : List Char} (h : EndsNumber rest) :
    readScalar? (Text.signedDecimal n ++ rest) = some (number n, rest) := by
  obtain ⟨c, t, ht, hc⟩ := exists_signedDecimal_eq_cons n
  have hn : 'n' ≠ c := (ne_of_startsNumber hc (by decide)).symm
  have htrue : 't' ≠ c := (ne_of_startsNumber hc (by decide)).symm
  have hfalse : 'f' ≠ c := (ne_of_startsNumber hc (by decide)).symm
  have hnumber := readNumber?_signedDecimal n h
  rw [ht, List.cons_append] at hnumber ⊢
  simp [readScalar?, readWord?, hn, htrue, hfalse, hnumber]

theorem readValue_number (n : Int) (fuel : Nat) {rest : List Char} (h : EndsNumber rest) :
    readValue (fuel + 1) (Text.signedDecimal n ++ rest) = some (number n, rest) := by
  obtain ⟨c, t, ht, hspace, _⟩ := startsValue_signedDecimal n
  obtain ⟨c', t', ht', hc⟩ := exists_signedDecimal_eq_cons n
  obtain ⟨rfl, rfl⟩ := List.cons.inj (ht.symm.trans ht')
  have hscalar := readScalar?_number n h
  rw [ht, List.cons_append] at hscalar ⊢
  rw [readValue, skipSpace_cons hspace]
  split
  · rename_i s hs
    exact absurd (List.cons.inj hs).1 (ne_of_startsNumber hc (by decide))
  · rename_i s hs
    exact absurd (List.cons.inj hs).1 (ne_of_startsNumber hc (by decide))
  · rename_i s hs
    exact absurd (List.cons.inj hs).1 (ne_of_startsNumber hc (by decide))
  · exact hscalar

theorem skipSpace_write (depth : Nat) (v : Json) (rest : List Char) :
    skipSpace (write depth v ++ rest) = write depth v ++ rest := by
  obtain ⟨c, t, ht, hspace, _⟩ := startsValue_write depth v
  rw [ht]
  exact skipSpace_cons hspace _

theorem readValue_newLine (n depth : Nat) (s : List Char) : readValue n (newLine depth ++ s) = readValue n s := by
  rw [← readValue_skipSpace, skipSpace_newLine, readValue_skipSpace]

theorem endsNumber_newLine (depth : Nat) (s : List Char) : EndsNumber (newLine depth ++ s) :=
  endsNumber_cons (by decide) _

/-- Behind a bracket that is not closed at once there are items. -/
theorem readValue_bracket (n : Nat) {s : List Char} (h : ∀ t, skipSpace s ≠ ']' :: t) :
    readValue (n + 1) ('[' :: s) = (readItems n s).map fun p => (array p.1, p.2) := by
  rw [readValue, skipSpace_cons (by decide)]
  show (match skipSpace s with
    | ']' :: s => some (array [], s)
    | s => (readItems n s).map fun p : List Json × List Char => (array p.1, p.2)) = _
  split
  · rename_i hs
    exact absurd hs (h _)
  · rw [readItems_skipSpace]

/-- Behind a brace that is not closed at once there are members. -/
theorem readValue_brace (n : Nat) {s : List Char} (h : ∀ t, skipSpace s ≠ '\x7d' :: t) :
    readValue (n + 1) ('\x7b' :: s) = (readMembers n s).map fun p => (object p.1, p.2) := by
  rw [readValue, skipSpace_cons (by decide)]
  show (match skipSpace s with
    | '\x7d' :: s => some (object [], s)
    | s => (readMembers n s).map fun p : List (String × Json) × List Char => (object p.1, p.2)) = _
  split
  · rename_i hs
    exact absurd hs (h _)
  · rw [readMembers_skipSpace]

/-- Items do not look like the end of an empty array. -/
theorem skipSpace_writeItems_ne (depth : Nat) (item : Json) (items : List Json) (s : List Char) :
    ∀ t, skipSpace (writeItems depth (item :: items) ++ s) ≠ ']' :: t := by
  intro t
  have hstart : ∀ u, skipSpace (newLine depth ++ (write depth item ++ u)) ≠ ']' :: t := by
    intro u hu
    obtain ⟨c, v, hv, _, hc, _⟩ := startsValue_write depth item
    rw [skipSpace_newLine, skipSpace_write, hv] at hu
    exact hc (List.cons.inj hu).1
  cases items with
  | nil => simpa [writeItems] using hstart s
  | cons next items => simpa [writeItems] using hstart (',' :: (writeItems depth (next :: items) ++ s))

/-- Members do not look like the end of an empty object. -/
theorem skipSpace_writeMembers_ne (depth : Nat) (member : String × Json) (members : List (String × Json))
    (s : List Char) : ∀ t, skipSpace (writeMembers depth (member :: members) ++ s) ≠ '\x7d' :: t := by
  intro t
  have hstart : ∀ u, skipSpace (newLine depth ++ '"' :: u) ≠ '\x7d' :: t := by
    intro u hu
    rw [skipSpace_newLine_cons depth (by decide)] at hu
    exact absurd (List.cons.inj hu).1 (by decide)
  cases members with
  | nil => simpa [writeMembers, Text.quoteChars] using hstart _
  | cons next members => simpa [writeMembers, Text.quoteChars] using hstart _

/-- After a written member comes the closing brace or a comma. -/
theorem readMembers_member {depth n : Nat} {key : String} {value : Json} {s : List Char}
    (hvalue : readValue n (write depth value ++ s) = some (value, s)) :
    readMembers (n + 1) (newLine depth ++
        '"' :: (key.toList.flatMap Text.escape ++ '"' :: ':' :: ' ' :: (write depth value ++ s))) =
      match skipSpace s with
      | '\x7d' :: s => some ([(key, value)], s)
      | ',' :: s => (readMembers n s).map fun p => ((key, value) :: p.1, p.2)
      | _ => none := by
  have hkey := readString?_quoted key (':' :: ' ' :: (write depth value ++ s))
  have hblank : readValue n (' ' :: (write depth value ++ s)) = some (value, s) := by
    rw [← readValue_skipSpace, show skipSpace (' ' :: (write depth value ++ s)) = skipSpace (write depth value ++ s)
      from rfl, readValue_skipSpace, hvalue]
  rw [readMembers, skipSpace_newLine_cons depth (by decide)]
  simp only [hkey, Option.bind_eq_bind, Option.bind_some, skipSpace_cons (show isSpace ':' = false by decide), hblank]
  split
  · rfl
  · cases readMembers n _ <;> rfl
  · rfl

mutual

/-- A written value is read as itself, whatever follows it; a number takes all digits. -/
theorem readValue_write (depth : Nat) (rest : List Char) (hrest : EndsNumber rest) :
    ∀ (v : Json) (n : Nat), (write depth v).length ≤ n → readValue n (write depth v ++ rest) = some (v, rest)
  | v, 0, hn => by
    obtain ⟨c, t, ht, _⟩ := startsValue_write depth v
    simp [ht] at hn
  | null, n + 1, _ => rfl
  | bool true, n + 1, _ => rfl
  | bool false, n + 1, _ => rfl
  | number value, n + 1, _ => readValue_number value n hrest
  | string value, n + 1, _ => by
    have hread := readString?_quoted value rest
    simp [write, Text.quoteChars, readValue, skipSpace, isSpace, hread]
  | array [], n + 1, _ => rfl
  | array (item :: items), n + 1, hn => by
    simp only [write, List.cons_append, List.append_assoc, List.length_cons, List.length_append, List.nil_append]
      at hn ⊢
    have hitems := readItems_write (depth + 1) depth rest (item :: items) n (by simp) (by omega)
    rw [readValue_bracket n (skipSpace_writeItems_ne (depth + 1) item items _), ← List.append_assoc, hitems]
    rfl
  | object [], n + 1, _ => rfl
  | object (member :: members), n + 1, hn => by
    simp only [write, List.cons_append, List.append_assoc, List.length_cons, List.length_append, List.nil_append]
      at hn ⊢
    have hmembers := readMembers_write (depth + 1) depth rest (member :: members) n (by simp) (by omega)
    rw [readValue_brace n (skipSpace_writeMembers_ne (depth + 1) member members _), ← List.append_assoc, hmembers]
    rfl

/-- Written items are read as themselves up to the closing bracket. -/
theorem readItems_write (depth outer : Nat) (rest : List Char) :
    ∀ (items : List Json) (n : Nat), items ≠ [] → (writeItems depth items).length ≤ n →
      readItems n (writeItems depth items ++ newLine outer ++ ']' :: rest) = some (items, rest)
  | [], _, h, _ => absurd rfl h
  | item :: items, 0, _, hn => by
    cases items <;> simp [writeItems, length_newLine] at hn
  | [item], n + 1, _, hn => by
    simp only [writeItems, List.append_assoc, List.length_append, length_newLine] at hn ⊢
    have hitem := readValue_write depth (newLine outer ++ ']' :: rest) (endsNumber_newLine outer _) item n (by omega)
    rw [readItems, readValue_newLine, hitem]
    simp [skipSpace_newLine_cons outer (show isSpace ']' = false by decide)]
  | item :: next :: items, n + 1, _, hn => by
    simp only [writeItems, List.append_assoc, List.cons_append, List.length_append, List.length_cons,
      length_newLine] at hn ⊢
    have hitem := readValue_write depth _ (endsNumber_cons (show Char.isDigit ',' = false by decide)
      (writeItems depth (next :: items) ++ (newLine outer ++ ']' :: rest))) item n (by omega)
    have hitems := readItems_write depth outer rest (next :: items) n (by simp) (by omega)
    rw [List.append_assoc] at hitems
    rw [readItems, readValue_newLine, hitem]
    simp [skipSpace_cons (show isSpace ',' = false by decide), hitems]

/-- Written members are read as themselves up to the closing brace. -/
theorem readMembers_write (depth outer : Nat) (rest : List Char) :
    ∀ (members : List (String × Json)) (n : Nat), members ≠ [] → (writeMembers depth members).length ≤ n →
      readMembers n (writeMembers depth members ++ newLine outer ++ '\x7d' :: rest) = some (members, rest)
  | [], _, h, _ => absurd rfl h
  | member :: members, 0, _, hn => by
    cases members <;> simp [writeMembers, length_newLine] at hn
  | [(key, value)], n + 1, _, hn => by
    simp only [writeMembers, Text.quoteChars, List.append_assoc, List.cons_append, List.nil_append, List.length_append,
      List.length_cons, length_newLine] at hn ⊢
    have hvalue := readValue_write depth (newLine outer ++ '\x7d' :: rest) (endsNumber_newLine outer _) value n
      (by omega)
    rw [readMembers_member hvalue, skipSpace_newLine_cons outer (by decide)]
    rfl
  | (key, value) :: next :: members, n + 1, _, hn => by
    simp only [writeMembers, Text.quoteChars, List.append_assoc, List.cons_append, List.nil_append, List.length_append,
      List.length_cons, length_newLine] at hn ⊢
    have hvalue := readValue_write depth _ (endsNumber_cons (show Char.isDigit ',' = false by decide)
      (writeMembers depth (next :: members) ++ (newLine outer ++ '\x7d' :: rest))) value n (by omega)
    have hmembers := readMembers_write depth outer rest (next :: members) n (by simp) (by omega)
    rw [List.append_assoc] at hmembers
    rw [readMembers_member hvalue, skipSpace_cons (by decide)]
    simp [hmembers]

end

/-- A written document is read as the value that it was written from. -/
theorem read?_pretty (v : Json) : read? v.pretty = some v := by
  have hv := readValue_write 0 [] (by simp [EndsNumber]) v ((write 0 v).length + 1) (Nat.le_succ _)
  rw [List.append_nil] at hv
  rw [read?, pretty, String.toList_ofList, hv]
  rfl

end SchemaLang.Json
