import Mathlib.Data.List.DropRight
import SchemaLang.Proofs.Searching

/-!
# Positions in a text

* `Position.behind` counts what stands before a place: all bytes, the line feeds, and the bytes after the last of them.
  Moving over a text counts the same (`Position.advance_start`).
* `Span.Covers` says that a span goes from one place of a text to a later one, and what stands between them. These are
  the bytes between the two offsets (`Span.Covers.extract_eq`).
* `Token.exists_elements` gives, for tokens that stand one after the other in a text, the elements from the first of
  them to the last. So the span from the first to the last covers a stretch that is cut into the same tokens
  (`Token.exists_covers`), and one token covers its lexeme, if the lexeme is what is written
  (`Token.covers_lexeme`).
-/

namespace SchemaLang

/-! ## Positions by counting -/

namespace Position

/-- The place behind a text: the bytes of the text, one more than its line feeds, and one more than the bytes behind the
last of these. -/
def behind (before : List Char) : Position where
  offset := (String.ofList before).utf8ByteSize
  line := before.count '\n' + 1
  column := (String.ofList (before.rtakeWhile (· ≠ '\n'))).utf8ByteSize + 1

theorem behind_concat (s : List Char) (c : Char) : behind (s ++ [c]) = (behind s).step c := by
  by_cases hc : c = '\n'
  · subst hc
    have hn : "\n".utf8ByteSize = '\n'.utf8Size := by decide
    simp [behind, step, hn]
  · simp [behind, step, hc]
    omega

/-- Moving over a text and counting come to the same place. -/
theorem advance_start (s : List Char) : start.advance s = behind s := by
  induction s using List.reverseRecOn with
  | nil => rfl
  | append_singleton s c ih =>
    rw [behind_concat, ← ih, advance_append]
    rfl

theorem finish_eq_behind (s : List Char) : finish s = behind s := by
  rw [finish_eq_advance, advance_start]

theorem offset_step (p : Position) (c : Char) : (p.step c).offset = p.offset + c.utf8Size := by
  rw [step]
  split <;> rfl

theorem offset_le_advance (p : Position) (s : List Char) : p.offset ≤ (p.advance s).offset := by
  induction s generalizing p with
  | nil => exact Nat.le_refl _
  | cons c s ih =>
    have h := ih (p.step c)
    rw [offset_step] at h
    rw [advance_cons]
    omega

theorem offset_lt_advance (p : Position) {s : List Char} (h : s ≠ []) : p.offset < (p.advance s).offset := by
  obtain ⟨c, s, rfl⟩ := List.exists_cons_of_ne_nil h
  have hs := offset_le_advance (p.step c) s
  have hc := c.utf8Size_pos
  rw [offset_step] at hs
  rw [advance_cons]
  omega

theorem offset_behind_append (s t : List Char) :
    (behind (s ++ t)).offset = (behind s).offset + (String.ofList t).utf8ByteSize := by
  simp [behind]

end Position

/-! ## Spans of a text -/

namespace Span

/-- A span from one place of a text to a later one, and the text between them. -/
def Covers (text : List Char) (span : Span) (slice : List Char) : Prop :=
  ∃ before after, text = before ++ slice ++ after ∧ span.start = .behind before ∧ span.stop = .behind (before ++ slice)

variable {text slice : List Char} {span : Span}

theorem Covers.stop_le (h : span.Covers text slice) : span.stop.offset ≤ (String.ofList text).utf8ByteSize := by
  obtain ⟨before, after, rfl, _, he⟩ := h
  have hend := Position.offset_behind_append (before ++ slice) after
  rw [he]
  show _ ≤ (Position.behind (before ++ slice ++ after)).offset
  omega

/-- The covered text is what stands between the two offsets. -/
theorem Covers.extract_eq (h : span.Covers text slice) :
    (String.ofList text).toByteArray.extract span.start.offset span.stop.offset =
      (String.ofList slice).toByteArray := by
  obtain ⟨before, after, rfl, hs, he⟩ := h
  have hsize : ((String.ofList before).toByteArray ++ (String.ofList slice).toByteArray).size = span.stop.offset := by
    rw [he, Position.offset_behind_append, ByteArray.size_append, String.size_toByteArray, String.size_toByteArray]
    rfl
  have hafter (i : Nat) : (String.ofList after).toByteArray.extract i 0 = ByteArray.empty :=
    ByteArray.extract_eq_empty_iff.2 (by simp)
  rw [String.ofList_append, String.ofList_append, String.toByteArray_append, String.toByteArray_append,
    ByteArray.extract_append, hsize, Nat.sub_self, hafter, ByteArray.append_empty]
  refine ByteArray.extract_append_eq_right ?_ ?_
  · rw [hs, String.size_toByteArray]
    rfl
  · rw [← hsize, ByteArray.size_append]

theorem Covers.unique {slice' : List Char} (h : span.Covers text slice) (h' : span.Covers text slice') :
    slice = slice' := by
  have he := h.extract_eq.symm.trans h'.extract_eq
  exact String.ofList_injective (String.toByteArray_inj.1 he)

/-- Where the second span is behind the first, both together go from the first to the second. -/
theorem combine_eq {a b : Span} (hs : a.start.offset ≤ b.start.offset) (he : a.stop.offset < b.stop.offset) :
    a.combine b = ⟨a.file, a.start, b.stop⟩ := by
  simp [combine, Nat.not_lt.2 hs, he]

end Span

/-! ## Tokens of a text -/

/-- Whether tokens of the kind have for their lexeme what is written. -/
def TokenKind.isVerbatim : TokenKind → Bool
  | rawString | escapedString | blockComment | endOfFile => false
  | _ => true

/-- An element that is a verbatim token consists of the lexeme. -/
theorem Element.text_eq_of_content? {e : Element} {t : Token} (h : e.content? = some t.content)
    (hv : t.kind.isVerbatim = true) : e.text = t.lexeme.toList := by
  obtain ⟨kind, lexeme, span⟩ := t
  cases e <;> simp only [content?, token?, Option.map_some, Option.map_none, Option.some.injEq, reduceCtorEq,
    Token.content, Prod.mk.injEq] at h
  case blockComment | escapedString | rawString =>
    obtain ⟨rfl, _⟩ := h
    cases hv
  all_goals
    obtain ⟨_, rfl⟩ := h
    simp [text]

theorem Element.text_ne_nil {e : Element} (h : e.Proper) : e.text ≠ [] := by
  have hstops : e.Stops [] := by simp [Stops]
  exact (text_of_scan? (scan?_text_append h hstops)).2

namespace Token

open Element

variable {file : Nat} {p : Position} {es : List Element} {t first last : Token} {ts us tokens : List Token}

/-! ### Elements behind the tokens -/

theorem ofElements_cons {e : Element} : ofElements file p (e :: es) =
    (e.content?.map fun c => (⟨c.1, c.2, ⟨file, p, p.advance e.text⟩⟩ : Token)).toList ++
      ofElements file (p.advance e.text) es := by
  rw [ofElements, content?]
  cases e.token? <;> rfl

/-- Two runs of tokens belong to two runs of elements. -/
theorem exists_of_ofElements_append (h : ofElements file p es = ts ++ us) : ∃ es₁ es₂, es = es₁ ++ es₂ ∧
    ofElements file p es₁ = ts ∧ ofElements file (p.advance (es₁.flatMap text)) es₂ = us := by
  induction es generalizing p ts with
  | nil =>
    obtain ⟨rfl, rfl⟩ := List.append_eq_nil_iff.1 h.symm
    exact ⟨[], [], rfl, rfl, rfl⟩
  | cons e es ih =>
    cases ts with
    | nil => exact ⟨[], e :: es, rfl, rfl, h⟩
    | cons t ts =>
      rw [ofElements_cons] at h
      cases hc : e.content? with
      | none =>
        rw [hc] at h
        obtain ⟨es₁, es₂, rfl, h₁, h₂⟩ := ih h
        refine ⟨e :: es₁, es₂, rfl, ?_, ?_⟩
        · rw [ofElements_cons, hc, h₁]
          rfl
        · rwa [List.flatMap_cons, Position.advance_append]
      | some c =>
        rw [hc] at h
        obtain ⟨rfl, hrest⟩ := List.cons.inj h
        obtain ⟨es₁, es₂, rfl, h₁, h₂⟩ := ih hrest
        refine ⟨e :: es₁, es₂, rfl, ?_, ?_⟩
        · rw [ofElements_cons, hc, h₁]
          rfl
        · rwa [List.flatMap_cons, Position.advance_append]

/-- The first token belongs to an element, with other elements in front that are no tokens. -/
theorem exists_of_ofElements_cons (h : ofElements file p es = t :: ts) : ∃ gap e es', es = gap ++ e :: es' ∧
    e.content? = some t.content ∧
      t.span = ⟨file, p.advance (gap.flatMap text), p.advance ((gap ++ [e]).flatMap text)⟩ ∧
        ofElements file (p.advance (gap.flatMap text)) (e :: es') = t :: ts := by
  induction es generalizing p with
  | nil => cases h
  | cons e es ih =>
    have he := h
    rw [ofElements_cons] at he
    cases hc : e.content? with
    | none =>
      rw [hc] at he
      obtain ⟨gap, f, es', rfl, hf, hspan, hr⟩ := ih he
      rw [← Position.advance_append, ← Position.advance_append] at hspan
      rw [← Position.advance_append] at hr
      exact ⟨e :: gap, f, es', rfl, hf, by simpa using hspan, by simpa using hr⟩
    | some c =>
      rw [hc] at he
      obtain ⟨rfl, _⟩ := List.cons.inj he
      exact ⟨[], e, es, rfl, hc, by simp, h⟩

/-- The last token belongs to an element, with other elements behind that are no tokens. -/
theorem exists_of_ofElements_concat (h : ofElements file p es = ts ++ [t]) : ∃ es' e gap, es = es' ++ [e] ++ gap ∧
    e.content? = some t.content ∧ t.span.stop = p.advance ((es' ++ [e]).flatMap text) ∧
      (es' ++ [e]).filterMap content? = (ts ++ [t]).map content := by
  obtain ⟨es₁, es₂, rfl, rfl, h₂⟩ := exists_of_ofElements_append h
  obtain ⟨gap, e, es', rfl, he, hspan, h₃⟩ := exists_of_ofElements_cons h₂
  have hgap := content_ofElements file (p.advance (es₁.flatMap text)) (gap ++ e :: es')
  have hrest := content_ofElements file ((p.advance (es₁.flatMap text)).advance (gap.flatMap text)) (e :: es')
  rw [h₂, List.filterMap_append] at hgap
  rw [h₃] at hrest
  have hnil : gap.filterMap content? = [] := by simpa [hrest] using hgap
  refine ⟨es₁ ++ gap, e, es', by simp, he, ?_, ?_⟩
  · rw [hspan]
    show (p.advance (es₁.flatMap text)).advance ((gap ++ [e]).flatMap text) = _
    rw [← Position.advance_append, ← List.flatMap_append, List.append_assoc]
  · simp [hnil, he, content_ofElements]

/-- One token of a text is one of its elements. -/
theorem exists_element {text : String} (h : ofText text file = .ok tokens) (ht : t ∈ tokens) :
    ∃ pre e post, split text.toList = (pre ++ [e] ++ post, []) ∧ e.content? = some t.content ∧
      t.span = ⟨file, .behind (pre.flatMap Element.text), .behind ((pre ++ [e]).flatMap Element.text)⟩ := by
  obtain ⟨es, hes, rfl⟩ := ofText_eq_ok_iff.1 h
  obtain ⟨us, vs, hu⟩ := List.append_of_mem ht
  obtain ⟨es₁, es₂, rfl, _, h₂⟩ := exists_of_ofElements_append hu
  obtain ⟨gap, e, es', rfl, he, hspan, _⟩ := exists_of_ofElements_cons h₂
  rw [← Position.advance_append, ← Position.advance_append, ← List.flatMap_append, ← List.flatMap_append] at hspan
  refine ⟨es₁ ++ gap, e, es', by simpa using hes, he, ?_⟩
  rw [hspan, Position.advance_start, Position.advance_start, List.append_assoc]

/-- The elements of a text from one token to another. -/
theorem exists_elements {text : String} (h : ofText text file = .ok tokens) (hts : ts <:+: tokens)
    (hf : first ∈ ts.head?) (hl : last ∈ ts.getLast?) : ∃ pre run post, split text.toList = (pre ++ run ++ post, []) ∧
      run.filterMap content? = ts.map content ∧ (∃ e ∈ run.head?, e.content? = some first.content) ∧
        (∃ e ∈ run.getLast?, e.content? = some last.content) ∧
          first.span.start = .behind (pre.flatMap Element.text) ∧
            last.span.stop = .behind ((pre ++ run).flatMap Element.text) := by
  obtain ⟨es, hes, rfl⟩ := ofText_eq_ok_iff.1 h
  obtain ⟨us, vs, hu⟩ := hts
  obtain ⟨es₁, es₂, rfl, h₁, _⟩ := exists_of_ofElements_append hu.symm
  obtain ⟨es₃, es₄, rfl, _, h₄⟩ := exists_of_ofElements_append h₁
  obtain ⟨ts', rfl⟩ := List.head?_eq_some_iff.1 hf
  obtain ⟨gap, e, es', rfl, he, hspan, h₅⟩ := exists_of_ofElements_cons h₄
  obtain ⟨us', hlast⟩ := List.getLast?_eq_some_iff.1 hl
  rw [hlast] at h₅
  obtain ⟨run, f, gap', hrun, hf', hstop, hcontent⟩ := exists_of_ofElements_concat h₅
  rw [← Position.advance_append, ← List.flatMap_append] at hspan hstop
  refine ⟨es₃ ++ gap, run ++ [f], gap' ++ es₂, ?_, by rw [hcontent, hlast], ?_, ⟨f, by simp, hf'⟩, ?_, ?_⟩
  · rw [hes, hrun]
    simp
  · refine ⟨e, ?_, he⟩
    cases run with
    | nil => simpa using (List.cons.inj hrun).1.symm
    | cons d run => simpa using (List.cons.inj hrun).1.symm
  · rw [hspan, Position.advance_start]
  · rw [hstop, ← Position.advance_append, Position.advance_start, ← List.flatMap_append, List.append_assoc]

/-! ### What tokens cover -/

/-- The span from one token of a text to another covers a stretch that is cut into the tokens between them. -/
theorem exists_covers {text : String} (h : ofText text file = .ok tokens) (hts : ts <:+: tokens)
    (hf : first ∈ ts.head?) (hl : last ∈ ts.getLast?) :
    ∃ slice, Span.Covers text.toList ⟨file, first.span.start, last.span.stop⟩ slice ∧ Lexes slice (ts.map content) ∧
      (first.kind.isVerbatim = true → first.lexeme.toList <+: slice) ∧
        (last.kind.isVerbatim = true → last.lexeme.toList <:+ slice) := by
  obtain ⟨pre, run, post, hsplit, hcontent, ⟨e, he, hfirst⟩, ⟨f, hf, hlast⟩, hstart, hstop⟩ :=
    exists_elements h hts hf hl
  obtain ⟨htext, _⟩ := split_eq_iff.1 hsplit
  refine ⟨run.flatMap Element.text, ⟨pre.flatMap Element.text, post.flatMap Element.text, ?_, hstart, ?_⟩,
    ⟨run, split_flatMap_text hsplit, hcontent⟩, fun hv => ?_, fun hv => ?_⟩
  · simpa using htext
  · simpa using hstop
  · obtain ⟨es, rfl⟩ := List.head?_eq_some_iff.1 he
    rw [← text_eq_of_content? hfirst hv, List.flatMap_cons]
    exact List.prefix_append _ _
  · obtain ⟨es, rfl⟩ := List.getLast?_eq_some_iff.1 hf
    rw [← text_eq_of_content? hlast hv, List.flatMap_append]
    simp

/-- The span from one token of a text to the end of a later one covers a stretch from the first to the later. -/
theorem exists_covers_pair {text : String} {a b : Token} (h : ofText text file = .ok tokens)
    (hs : [a, b].Sublist tokens) : ∃ slice, Span.Covers text.toList ⟨file, a.span.start, b.span.stop⟩ slice ∧
      (a.kind.isVerbatim = true → a.lexeme.toList <+: slice) ∧
        (b.kind.isVerbatim = true → b.lexeme.toList <:+ slice) := by
  obtain ⟨ts, us, rfl, ha, hb⟩ := List.cons_sublist_iff.1 hs
  obtain ⟨pre, mid, rfl⟩ := List.append_of_mem ha
  obtain ⟨mid', post, rfl⟩ := List.append_of_mem (List.singleton_sublist.1 hb)
  have hi : a :: (mid ++ mid' ++ [b]) <:+: pre ++ a :: mid ++ (mid' ++ b :: post) := ⟨pre, post, by simp⟩
  have hlast : b ∈ (a :: (mid ++ mid' ++ [b])).getLast? := by rw [← List.cons_append, List.getLast?_concat]; rfl
  obtain ⟨slice, hcovers, _, ha', hb'⟩ := exists_covers h hi (show a ∈ (a :: _).head? from rfl) hlast
  exact ⟨slice, hcovers, ha', hb'⟩

/-- A token of a text covers what it is cut from. -/
theorem exists_covers_token {text : String} (h : ofText text file = .ok tokens) (ht : t ∈ tokens) :
    ∃ slice, t.span.Covers text.toList slice ∧ Lexes slice [t.content] ∧
      (t.kind.isVerbatim = true → slice = t.lexeme.toList) := by
  obtain ⟨pre, e, post, hsplit, he, hspan⟩ := exists_element h ht
  obtain ⟨htext, _⟩ := split_eq_iff.1 hsplit
  refine ⟨e.text, ⟨pre.flatMap Element.text, post.flatMap Element.text, ?_, by rw [hspan], ?_⟩, ⟨[e], ?_, ?_⟩,
    fun hv => text_eq_of_content? he hv⟩
  · rw [htext]
    simp
  · rw [hspan]
    simp
  · simpa using split_flatMap_text hsplit
  · simp [he]

/-- A verbatim token covers its lexeme. -/
theorem covers_lexeme {text : String} (h : ofText text file = .ok tokens) (ht : t ∈ tokens)
    (hv : t.kind.isVerbatim = true) : t.span.Covers text.toList t.lexeme.toList := by
  obtain ⟨slice, hcovers, _, hslice⟩ := exists_covers_token h ht
  rwa [← hslice hv]

/-! ### Tokens in order -/

/-- Tokens of one source, each with some text and behind those before it. -/
structure Lined (file : Nat) (ts : List Token) : Prop where
  file_eq : ∀ t ∈ ts, t.span.file = file
  filled : ∀ t ∈ ts, t.span.start.offset < t.span.stop.offset
  ordered : ts.Pairwise fun a b => a.span.stop.offset ≤ b.span.start.offset

theorem Lined.sublist (h : Lined file tokens) (hs : ts.Sublist tokens) : Lined file ts :=
  ⟨fun t ht => h.file_eq t (hs.subset ht), fun t ht => h.filled t (hs.subset ht), h.ordered.sublist hs⟩

theorem Lined.pair {a b : Token} (h : Lined file (ts ++ us)) (ha : a ∈ ts) (hb : b ∈ us) : Lined file [a, b] :=
  h.sublist ((List.singleton_sublist.2 ha).append (List.singleton_sublist.2 hb))

theorem Lined.span_eq (h : Lined file ts) (ht : t ∈ ts) : t.span = ⟨file, t.span.start, t.span.stop⟩ := by
  rw [← h.file_eq t ht]

/-- Combining a span that ends with one token and the span of a later token extends the first to the end of the later
token. -/
theorem Lined.combine_eq {a b : Token} (h : Lined file [a, b]) {p : Position} (hp : p.offset ≤ b.span.start.offset) :
    Span.combine ⟨file, p, a.span.stop⟩ b.span = ⟨file, p, b.span.stop⟩ := by
  have hb := h.filled b (by simp)
  have hab : a.span.stop.offset ≤ b.span.start.offset := by simpa using h.ordered
  exact Span.combine_eq hp (Nat.lt_of_le_of_lt hab hb)

theorem Lined.start_le {a b : Token} (h : Lined file [a, b]) : a.span.start.offset ≤ b.span.start.offset := by
  have ha := h.filled a (by simp)
  have hab : a.span.stop.offset ≤ b.span.start.offset := by simpa using h.ordered
  omega

/-- The combined span of two tokens in order goes from the first to the second. -/
theorem Lined.combine_span {a b : Token} (h : Lined file [a, b]) :
    a.span.combine b.span = ⟨file, a.span.start, b.span.stop⟩ := by
  rw [h.span_eq (t := a) (by simp)]
  exact h.combine_eq h.start_le

/-- A token in front of tokens in order. -/
theorem Lined.cons (h : Lined file ts) (hfile : t.span.file = file) (ht : t.span.start.offset < t.span.stop.offset)
    (hts : ∀ u ∈ ts, t.span.stop.offset ≤ u.span.start.offset) : Lined file (t :: ts) :=
  ⟨List.forall_mem_cons.2 ⟨hfile, h.file_eq⟩, List.forall_mem_cons.2 ⟨ht, h.filled⟩,
    List.pairwise_cons.2 ⟨hts, h.ordered⟩⟩

theorem lined_ofElements (hp : ∀ e ∈ es, e.Proper) :
    Lined file (ofElements file p es) ∧ ∀ t ∈ ofElements file p es, p.offset ≤ t.span.start.offset := by
  induction es generalizing p with
  | nil => exact ⟨⟨by simp [ofElements], by simp [ofElements], by simp [ofElements]⟩, by simp [ofElements]⟩
  | cons e es ih =>
    obtain ⟨he, hes⟩ := List.forall_mem_cons.1 hp
    obtain ⟨hl, hle⟩ := ih (p := p.advance e.text) hes
    have hlt := p.offset_lt_advance (text_ne_nil he)
    rw [ofElements_cons]
    cases e.content? with
    | none => exact ⟨hl, fun t ht => Nat.le_trans (Nat.le_of_lt hlt) (hle t ht)⟩
    | some c =>
      refine ⟨hl.cons rfl hlt hle, List.forall_mem_cons.2 ⟨Nat.le_refl _, fun t ht => ?_⟩⟩
      exact Nat.le_trans (Nat.le_of_lt hlt) (hle t ht)

/-- The tokens of a text are in order. -/
theorem lined_ofText {text : String} (h : ofText text file = .ok tokens) : Lined file tokens := by
  obtain ⟨es, hes, rfl⟩ := ofText_eq_ok_iff.1 h
  obtain ⟨_, ha, _⟩ := split_eq_iff.1 hes
  exact (lined_ofElements ha.proper).1

end Token

end SchemaLang
