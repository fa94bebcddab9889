import Mathlib.Data.List.TakeWhile
import SchemaLang.Proofs.Lexing

/-!
# Scanning side by side

Which texts are elements, and which elements may stand side by side.

* `Element.Proper` says of each kind of element which texts are one, and `Element.Stops` that the text behind an element
  does not go on with a character that it would take as well. An element is scanned exactly if it is proper and stops
  there (`Element.scan?_eq_some_iff`).
* `Element.Adjacent` says the same of a list of elements. A text is cut into exactly the adjacent elements that make it
  up (`Element.split_eq_iff`).
* So a stretch of elements is cut in the same way if it stands alone (`Element.split_flatMap_text`).
-/

namespace SchemaLang.Element

variable {s rest body : List Char} {e : Element}

/-! ## Single elements -/

/-- The body of a double-quoted string: a character follows every backslash, no line feed, and every other double quote
has a backslash before it. -/
def Escaping : List Char → Prop
  | [] => True
  | '\\' :: c :: s => c ≠ '\n' ∧ Escaping s
  | c :: s => c ≠ '\\' ∧ c ≠ '"' ∧ Escaping s

/-- The texts of elements, by their kinds. -/
def Proper : Element → Prop
  | blockComment body => Unclosing body
  | lineComment body => '\n' ∉ body
  | escapedString body => Escaping body
  | rawString body => '\'' ∉ body
  | digits text => text ≠ [] ∧ ∀ c ∈ text, Text.isDecimalDigit c = true
  | word text => IsWord text
  | mark char kind => (char, kind) ∈ marks
  | blanks text => text ≠ [] ∧ ∀ c ∈ text, Text.isBlank c = true

/-- Whether an element is layout: a run of white space or a line comment. -/
def isLayout : Element → Bool
  | blanks _ | lineComment _ => true
  | _ => false

theorem content?_of_isLayout (h : e.isLayout = true) : e.content? = none := by
  cases e with
  | blanks | lineComment => rfl
  | _ => cases h

/-- Whether an element would take a character that comes behind it. -/
def continues : Element → Char → Bool
  | lineComment _, c => c ≠ '\n'
  | digits _, c => Text.isDecimalDigit c
  | word _, c => isWordChar c
  | blanks _, c => Text.isBlank c
  | _, _ => false

/-- An element ends where a text begins. -/
def Stops (e : Element) (rest : List Char) : Prop := ∀ c ∈ rest.head?, e.continues c = false

theorem unclosing_cons {c : Char} : Unclosing (c :: s) ↔ (c = '*' → s.head? ≠ some '/') ∧ Unclosing s := by
  have hp : ['*', '/'] <+: c :: s ↔ c = '*' ∧ s.head? = some '/' := by
    cases s with
    | nil => simp
    | cons d s => simp [List.cons_prefix_cons, eq_comm]
  rw [Unclosing, Unclosing, List.infix_cons_iff, hp, not_or, not_and]

theorem scanBlock?_eq_some_iff :
    scanBlock? s = some (body, rest) ↔ s = body ++ '*' :: '/' :: rest ∧ Unclosing body := by
  constructor
  · intro h
    refine ⟨eq_append_of_scanBlock? h, ?_⟩
    fun_induction scanBlock? s generalizing body with
    | case1 => simp at h
    | case2 r =>
      obtain ⟨rfl, rfl⟩ := Prod.mk.inj (Option.some.inj h)
      simp [Unclosing]
    | case3 c s hc ih =>
      obtain ⟨⟨b, r⟩, hs, hb⟩ := Option.map_eq_some_iff.1 h
      obtain ⟨rfl, rfl⟩ := Prod.mk.inj hb
      refine unclosing_cons.2 ⟨fun hstar hslash => ?_, ih hs⟩
      obtain ⟨b', rfl⟩ := List.head?_eq_some_iff.1 hslash
      exact hc _ hstar (eq_append_of_scanBlock? hs)
  · rintro ⟨rfl, h⟩
    induction body with
    | nil => rfl
    | cons c body ih =>
      obtain ⟨hc, hb⟩ := unclosing_cons.1 h
      rw [List.cons_append, scanBlock?]
      · rw [ih hb]
        rfl
      · intro r hstar hslash
        refine hc hstar ?_
        cases body with
        | nil => simp at hslash
        | cons d body => simpa using (List.cons.inj hslash).1

theorem scanRaw?_eq_some_iff : scanRaw? s = some (body, rest) ↔ s = body ++ '\'' :: rest ∧ '\'' ∉ body := by
  constructor
  · intro h
    refine ⟨eq_append_of_scanRaw? h, ?_⟩
    fun_induction scanRaw? s generalizing body with
    | case1 => simp at h
    | case2 r =>
      obtain ⟨rfl, rfl⟩ := Prod.mk.inj (Option.some.inj h)
      simp
    | case3 c s hc ih =>
      obtain ⟨⟨b, r⟩, hs, hb⟩ := Option.map_eq_some_iff.1 h
      obtain ⟨rfl, rfl⟩ := Prod.mk.inj hb
      exact List.not_mem_cons_of_ne_of_not_mem (fun he => hc he.symm) (ih hs)
  · rintro ⟨rfl, h⟩
    induction body with
    | nil => rfl
    | cons c body ih =>
      obtain ⟨hc, hb⟩ := List.ne_and_not_mem_of_not_mem_cons h
      rw [List.cons_append, scanRaw?, ih hb]
      · rfl
      · exact fun he => hc he.symm

theorem scanEscaped?_eq_some_iff :
    scanEscaped? s = some (body, rest) ↔ s = body ++ '"' :: rest ∧ Escaping body := by
  constructor
  · intro h
    refine ⟨eq_append_of_scanEscaped? h, ?_⟩
    fun_induction scanEscaped? s generalizing body with
    | case1 => simp at h
    | case2 r =>
      obtain ⟨rfl, rfl⟩ := Prod.mk.inj (Option.some.inj h)
      trivial
    | case3 => simp at h
    | case4 c s hc ih =>
      obtain ⟨⟨b, r⟩, hs, hb⟩ := Option.map_eq_some_iff.1 h
      obtain ⟨rfl, rfl⟩ := Prod.mk.inj hb
      exact ⟨hc, ih hs⟩
    | case5 => simp at h
    | case6 c s hq _ hc ih =>
      obtain ⟨⟨b, r⟩, hs, hb⟩ := Option.map_eq_some_iff.1 h
      obtain ⟨rfl, rfl⟩ := Prod.mk.inj hb
      rw [Escaping]
      · exact ⟨hc, hq, ih hs⟩
      · exact fun _ _ he => absurd he hc
  · rintro ⟨rfl, h⟩
    fun_induction Escaping body with
    | case1 => rfl
    | case2 c s ih => simp [scanEscaped?, h.1, ih h.2]
    | case3 c s hne ih =>
      rw [List.cons_append, scanEscaped?, if_neg h.1, ih h.2.2]
      · rfl
      · exact h.2.1
      · exact fun _ _ he => absurd he h.1

theorem plain_of_isDecimalDigit {c : Char} (h : Text.isDecimalDigit c = true) : Plain c := by
  have hz : ∀ z ∈ Text.digitZeros, 0x30 ≤ z := by decide
  obtain ⟨z, hmem, hc⟩ := List.any_eq_true.1 h
  have hle := Nat.le_trans (hz z hmem) (of_decide_eq_true (Bool.and_eq_true_iff.1 hc).1)
  refine ⟨?_, ?_, ?_⟩ <;> rintro rfl <;> exact absurd hle (by decide)

theorem classes_of_mem_marks {c : Char} {kind : TokenKind} (h : (c, kind) ∈ marks) :
    Plain c ∧ Text.isDecimalDigit c = false ∧ isWordStart c = false ∧ Text.isBlank c = false ∧
      marks.lookup c = some kind := by
  have hall : ∀ m ∈ marks, Plain m.1 ∧ Text.isDecimalDigit m.1 = false ∧ isWordStart m.1 = false ∧
      Text.isBlank m.1 = false ∧ marks.lookup m.1 = some m.2 := by
    decide
  exact hall _ h

/-- What comes behind the longest stretch of a class does not belong to the class. -/
theorem head?_dropWhile (p : Char → Bool) (s : List Char) : ∀ c ∈ (s.dropWhile p).head?, p c = false := by
  intro c hc
  have h := List.head?_dropWhile_not p s
  rw [Option.mem_def.1 hc] at h
  simpa using h

/-- A scanned element is proper, and the rest does not go on with it. -/
theorem proper_and_stops_of_scan? (h : scan? s = some (e, rest)) : e.Proper ∧ e.Stops rest := by
  unfold scan? at h
  split at h
  · simp at h
  · obtain ⟨⟨b, r⟩, hs, hb⟩ := Option.map_eq_some_iff.1 h
    obtain ⟨rfl, rfl⟩ := Prod.mk.inj hb
    exact ⟨(scanBlock?_eq_some_iff.1 hs).2, fun _ _ => rfl⟩
  · obtain ⟨rfl, rfl⟩ := Prod.mk.inj (Option.some.inj h)
    exact ⟨fun hm => by simpa using List.mem_takeWhile_imp hm, head?_dropWhile _ _⟩
  · obtain ⟨⟨b, r⟩, hs, hb⟩ := Option.map_eq_some_iff.1 h
    obtain ⟨rfl, rfl⟩ := Prod.mk.inj hb
    exact ⟨(scanEscaped?_eq_some_iff.1 hs).2, fun _ _ => rfl⟩
  · obtain ⟨⟨b, r⟩, hs, hb⟩ := Option.map_eq_some_iff.1 h
    obtain ⟨rfl, rfl⟩ := Prod.mk.inj hb
    exact ⟨(scanRaw?_eq_some_iff.1 hs).2, fun _ _ => rfl⟩
  · split at h
    · rename_i hc
      obtain ⟨rfl, rfl⟩ := Prod.mk.inj (Option.some.inj h)
      exact ⟨⟨by simp, List.forall_mem_cons.2 ⟨hc, fun _ => List.mem_takeWhile_imp⟩⟩, head?_dropWhile _ _⟩
    · split at h
      · rename_i hc
        obtain ⟨rfl, rfl⟩ := Prod.mk.inj (Option.some.inj h)
        refine ⟨⟨hc, List.all_eq_true.2 (List.forall_mem_cons.2 ⟨isWordChar_of_isWordStart hc, ?_⟩)⟩,
          head?_dropWhile _ _⟩
        exact fun _ => List.mem_takeWhile_imp
      · split at h
        · rename_i hc
          obtain ⟨rfl, rfl⟩ := Prod.mk.inj (Option.some.inj h)
          exact ⟨⟨by simp, List.forall_mem_cons.2 ⟨hc, fun _ => List.mem_takeWhile_imp⟩⟩, head?_dropWhile _ _⟩
        · obtain ⟨kind, hk, hb⟩ := Option.map_eq_some_iff.1 h
          obtain ⟨rfl, rfl⟩ := Prod.mk.inj hb
          obtain ⟨before, after, hm, _⟩ := List.lookup_eq_some_iff.1 hk
          exact ⟨(hm ▸ List.mem_append_right before List.mem_cons_self : _ ∈ marks), fun _ _ => rfl⟩

/-- A proper element is scanned from its text, where it stops. -/
theorem scan?_text_append (hp : e.Proper) (hs : e.Stops rest) : scan? (e.text ++ rest) = some (e, rest) := by
  cases e with
  | blockComment body =>
    have hb := scanBlock?_eq_some_iff.2 ⟨(rfl : body ++ '*' :: '/' :: rest = _), hp⟩
    simp [text, scan?, hb]
  | lineComment body =>
    have hb : ∀ c ∈ body, decide (c ≠ '\n') = true := by
      intro c hc
      have hne : c ≠ '\n' := by
        rintro rfl
        exact hp hc
      exact decide_eq_true hne
    simp only [text, List.cons_append, scan?]
    rw [takeWhile_of_ends hb hs, dropWhile_of_ends hb hs]
  | escapedString body =>
    have hb := scanEscaped?_eq_some_iff.2 ⟨(rfl : body ++ '"' :: rest = _), hp⟩
    simp [text, scan?, hb]
  | rawString body =>
    have hb := scanRaw?_eq_some_iff.2 ⟨(rfl : body ++ '\'' :: rest = _), hp⟩
    simp [text, scan?, hb]
  | digits w =>
    obtain ⟨hne, hw⟩ := hp
    obtain ⟨c, w, rfl⟩ := List.exists_cons_of_ne_nil hne
    obtain ⟨hc, hw⟩ := List.forall_mem_cons.1 hw
    rw [text, List.cons_append, scan?_cons (plain_of_isDecimalDigit hc), if_pos hc, takeWhile_of_ends hw hs,
      dropWhile_of_ends hw hs]
  | word w =>
    obtain ⟨hstart, hw⟩ := hp
    cases w with
    | nil => cases hstart
    | cons c w =>
      have hc : isWordStart c = true := hstart
      obtain ⟨hplain, hd⟩ := plain_of_isWordStart hc
      have hw := (List.forall_mem_cons.1 (List.all_eq_true.1 hw)).2
      rw [text, List.cons_append, scan?_cons hplain, hd, if_neg Bool.false_ne_true, if_pos hc, takeWhile_of_ends hw hs,
        dropWhile_of_ends hw hs]
  | mark c kind =>
    obtain ⟨hplain, hd, hw, hb, hl⟩ := classes_of_mem_marks hp
    simp [text, scan?_cons hplain, hd, hw, hb, hl]
  | blanks w =>
    obtain ⟨hne, hw⟩ := hp
    obtain ⟨c, w, rfl⟩ := List.exists_cons_of_ne_nil hne
    obtain ⟨hc, hw⟩ := List.forall_mem_cons.1 hw
    rw [text, List.cons_append, scan?_blank hc, takeWhile_of_ends hw hs, dropWhile_of_ends hw hs]

/-- The element at the front of a text is the proper element that stops where the rest begins. -/
theorem scan?_eq_some_iff : scan? s = some (e, rest) ↔ s = e.text ++ rest ∧ e.Proper ∧ e.Stops rest := by
  constructor
  · intro h
    exact ⟨eq_text_append_of_scan? h, proper_and_stops_of_scan? h⟩
  · rintro ⟨rfl, hp, hs⟩
    exact scan?_text_append hp hs

/-- A text of which the first character is that of another ends no other elements. -/
theorem Stops.mono {rest' : List Char} (h : e.Stops rest) (hh : ∀ c ∈ rest'.head?, c ∈ rest.head?) : e.Stops rest' :=
  fun c hc => h c (hh c hc)

/-- A word has the kind of a reserved word or is an identifier. -/
theorem wordKind_eq (w : List Char) : wordKind w = .identifier ∨ (String.ofList w, wordKind w) ∈ keywords := by
  rw [wordKind]
  cases hk : keyword? (String.ofList w) with
  | none => exact .inl rfl
  | some kind =>
    obtain ⟨before, after, hm, _⟩ := List.lookup_eq_some_iff.1 hk
    exact .inr (hm ▸ List.mem_append_right before List.mem_cons_self)

theorem digitsKind_eq (w : List Char) : digitsKind w = .number ∨ digitsKind w = .identifier := by
  cases w with
  | nil => exact .inr rfl
  | cons d w =>
    rw [digitsKind]
    split
    · exact .inl rfl
    · exact .inr rfl

/-- A token with the kind of a mark is that mark, and no element is an end of file. -/
theorem Proper.of_content? {c : TokenKind × String} (h : e.Proper) (hc : e.content? = some c) :
    c.1 ≠ .endOfFile ∧ (c.1 ∈ marks.map Prod.snd → ∃ char, (char, c.1) ∈ marks ∧ c.2 = String.ofList [char]) := by
  have hkeywords : ∀ k ∈ keywords, k.2 ≠ .endOfFile ∧ k.2 ∉ marks.map Prod.snd := by decide
  cases e with
  | lineComment | blanks => cases hc
  | blockComment | escapedString | rawString =>
    obtain rfl := Option.some.inj hc
    simp [marks]
  | digits w =>
    obtain rfl := Option.some.inj hc
    rcases digitsKind_eq w with hk | hk <;> simp [hk, marks]
  | word w =>
    obtain rfl := Option.some.inj hc
    rcases wordKind_eq w with hk | hk
    · simp [hk, marks]
    · exact ⟨(hkeywords _ hk).1, fun hm => absurd hm (hkeywords _ hk).2⟩
  | mark char kind =>
    obtain rfl := Option.some.inj hc
    have hmarks : ∀ m ∈ marks, m.2 ≠ .endOfFile := by decide
    exact ⟨hmarks _ h, fun _ => ⟨char, h, rfl⟩⟩

/-! ## Elements side by side -/

/-- Proper elements of which each stops where the next one begins, and the last one where a text begins. -/
def Adjacent : List Element → List Char → Prop
  | [], _ => True
  | e :: es, rest => e.Proper ∧ e.Stops (es.flatMap text ++ rest) ∧ Adjacent es rest

variable {es fs : List Element} {stuck : List Char}

/-- A text is cut into the adjacent elements in front of the place where no element starts. -/
theorem split_eq_iff :
    split s = (es, stuck) ↔ s = es.flatMap text ++ stuck ∧ Adjacent es stuck ∧ scan? stuck = none := by
  induction es generalizing s with
  | nil =>
    rw [split_eq]
    cases hs : scan? s with
    | none =>
      simp only [Prod.mk.injEq, true_and, List.flatMap_nil, List.nil_append, Adjacent]
      constructor
      · rintro rfl
        exact ⟨rfl, hs⟩
      · exact fun h => h.1
    | some p =>
      simp only [Prod.mk.injEq, reduceCtorEq, false_and, List.flatMap_nil, List.nil_append, Adjacent, true_and,
        false_iff, not_and]
      rintro rfl hn
      rw [hs] at hn
      cases hn
  | cons e es ih =>
    constructor
    · intro h
      rw [split_eq] at h
      cases hs : scan? s with
      | none => simp [hs] at h
      | some p =>
        obtain ⟨f, rest⟩ := p
        simp only [hs, Prod.mk.injEq, List.cons.injEq] at h
        obtain ⟨⟨rfl, hes⟩, hstuck⟩ := h
        obtain ⟨rfl, ha, hn⟩ := ih.1 (Prod.ext hes hstuck)
        obtain ⟨rfl, hp, hstop⟩ := scan?_eq_some_iff.1 hs
        exact ⟨by simp, ⟨hp, hstop, ha⟩, hn⟩
    · rintro ⟨rfl, ⟨hp, hstop, ha⟩, hn⟩
      rw [List.flatMap_cons, List.append_assoc, split_eq, scan?_text_append hp hstop]
      simp only [ih.2 ⟨rfl, ha, hn⟩]

theorem adjacent_append : Adjacent (es ++ fs) rest ↔ Adjacent es (fs.flatMap text ++ rest) ∧ Adjacent fs rest := by
  induction es with
  | nil => simp [Adjacent]
  | cons e es ih => simp [Adjacent, ih, and_assoc]

theorem head?_append_mono {rest' : List Char} (hh : ∀ c ∈ rest'.head?, c ∈ rest.head?) (s : List Char) :
    ∀ c ∈ (s ++ rest').head?, c ∈ (s ++ rest).head? := by
  cases s with
  | nil => exact hh
  | cons d s => exact fun c hc => hc

theorem Adjacent.mono {rest' : List Char} (hh : ∀ c ∈ rest'.head?, c ∈ rest.head?) :
    ∀ {es : List Element}, Adjacent es rest → Adjacent es rest'
  | [], _ => trivial
  | _ :: es, ⟨hp, hs, ha⟩ => ⟨hp, hs.mono (head?_append_mono hh (es.flatMap text)), ha.mono hh⟩

theorem Adjacent.proper : ∀ {es : List Element}, Adjacent es rest → ∀ e ∈ es, e.Proper
  | [], _ => by simp
  | _ :: _, ⟨hp, _, ha⟩ => List.forall_mem_cons.2 ⟨hp, ha.proper⟩

/-- A stretch of the elements of a text is cut in the same way if it stands alone. -/
theorem split_flatMap_text {pre run post : List Element} (h : split s = (pre ++ run ++ post, stuck)) :
    split (run.flatMap text) = (run, []) := by
  obtain ⟨_, ha, _⟩ := split_eq_iff.1 h
  rw [List.append_assoc, adjacent_append, adjacent_append] at ha
  exact split_eq_iff.2 ⟨(List.append_nil _).symm, ha.2.1.mono (by simp), rfl⟩

end SchemaLang.Element
