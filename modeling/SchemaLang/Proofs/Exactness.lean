import SchemaLang.Proofs.Positions

/-!
# Reading is exact

* `Token.Scanned` says which tokens a text has, element by element: the element that starts at a place is taken, one
  behind the other, up to the end of the text, and every element but layout is a token.
* `Token.gapsFrom` are the spans between neighbouring tokens, in front of the first and behind the last.
* Main result: `Token.ofText_exact`.
-/

namespace SchemaLang

/-- A text that is made of white space and line comments. -/
def Element.IsGap (s : List Char) : Prop :=
  ∃ es : List Element, (∀ e ∈ es, e.Proper ∧ e.isLayout = true) ∧ s = es.flatMap text

namespace Token

open Element

variable {file : Nat} {before rest s : List Char} {tokens : List Token} {e : Element}

/-- The tokens of what is left of a text, given what stands before it. -/
inductive Scanned (file : Nat) : List Char → List Char → List Token → Prop where
  | finish {before : List Char} : Scanned file before [] []
  | layout {before rest : List Char} {tokens : List Token} {e : Element} (proper : e.Proper) (stops : e.Stops rest)
    (layout : e.isLayout = true) (behind : Scanned file (before ++ e.text) rest tokens) :
    Scanned file before (e.text ++ rest) tokens
  | token {before rest : List Char} {tokens : List Token} {e : Element} (proper : e.Proper) (stops : e.Stops rest)
    (token : e.isLayout = false) (behind : Scanned file (before ++ e.text) rest tokens) :
    Scanned file before (e.text ++ rest)
      (⟨(classify e.text).1, String.ofList (classify e.text).2,
        ⟨file, .behind before, .behind (before ++ e.text)⟩⟩ :: tokens)

/-- The spans between tokens, from one place to another. -/
def gapsFrom (file : Nat) (start stop : Position) : List Token → List Span
  | [] => [⟨file, start, stop⟩]
  | t :: ts => ⟨file, start, t.span.start⟩ :: gapsFrom file t.span.stop stop ts

/-! ## Scanned tokens -/

theorem advance_behind (before s : List Char) : (Position.behind before).advance s = .behind (before ++ s) := by
  rw [← Position.advance_start, ← Position.advance_start, Position.advance_append]

/-- An element adds a token to those of the elements behind it, if it is no layout. -/
theorem ofElements_behind (hp : e.Proper) (es : List Element) : ofElements file (.behind before) (e :: es) =
    (if e.isLayout then [] else
      [⟨(classify e.text).1, String.ofList (classify e.text).2, ⟨file, .behind before, .behind (before ++ e.text)⟩⟩]) ++
      ofElements file (.behind (before ++ e.text)) es := by
  rw [ofElements, advance_behind, (isLayout_text_and_token? hp).2]
  cases e.isLayout <;> rfl

/-- Scanned tokens are those of adjacent elements that make up the text. -/
theorem scanned_iff : Scanned file before s tokens ↔
    ∃ es : List Element, s = es.flatMap text ∧ Adjacent es [] ∧ ofElements file (.behind before) es = tokens := by
  constructor
  · intro h
    induction h with
    | finish => exact ⟨[], rfl, trivial, rfl⟩
    | layout hp hs hl _ ih =>
      obtain ⟨es, rfl, ha, rfl⟩ := ih
      refine ⟨_ :: es, rfl, ⟨hp, by simpa using hs, ha⟩, ?_⟩
      rw [ofElements_behind hp, if_pos hl, List.nil_append]
    | token hp hs hl _ ih =>
      obtain ⟨es, rfl, ha, rfl⟩ := ih
      refine ⟨_ :: es, rfl, ⟨hp, by simpa using hs, ha⟩, ?_⟩
      rw [ofElements_behind hp, if_neg (by simp [hl])]
      rfl
  · rintro ⟨es, rfl, ha, rfl⟩
    induction es generalizing before with
    | nil => exact .finish
    | cons e es ih =>
      obtain ⟨hp, hs, ha⟩ := ha
      rw [List.append_nil] at hs
      rw [ofElements_behind hp, List.flatMap_cons]
      cases hl : e.isLayout with
      | true => exact .layout hp hs hl (ih ha)
      | false => exact .token hp hs hl (ih ha)

/-- The tokens of a text are exactly the scanned ones. -/
theorem ofText_eq_ok_iff_scanned {text : String} :
    ofText text file = .ok tokens ↔ Scanned file [] text.toList tokens := by
  rw [ofText_eq_ok_iff, scanned_iff]
  refine exists_congr fun es => ?_
  rw [split_eq_iff, List.append_nil, show Position.start = Position.behind [] from rfl]
  constructor
  · rintro ⟨⟨htext, ha, _⟩, htokens⟩
    exact ⟨htext, ha, htokens⟩
  · rintro ⟨htext, ha, htokens⟩
    exact ⟨⟨htext, ha, rfl⟩, htokens⟩

/-! ## Gaps -/

theorem isGap_nil : IsGap [] := ⟨[], by simp, rfl⟩

theorem isGap_append_text {gap : List Char} (hg : IsGap gap) (hp : e.Proper) (hl : e.isLayout = true) :
    IsGap (gap ++ e.text) := by
  obtain ⟨es, hes, rfl⟩ := hg
  refine ⟨es ++ [e], fun f hf => ?_, by simp⟩
  rcases List.mem_append.1 hf with hf | hf
  · exact hes f hf
  · obtain rfl := List.mem_singleton.1 hf
    exact ⟨hp, hl⟩

/-- Between scanned tokens there is only layout, also if there is some in front of them that is behind another token. -/
theorem covers_of_mem_gapsFrom (h : Scanned file before s tokens) : ∀ {past gap : List Char}, before = past ++ gap →
    IsGap gap → ∀ span ∈ gapsFrom file (.behind past) (.behind (before ++ s)) tokens,
      ∃ slice, span.Covers (before ++ s) slice ∧ IsGap slice := by
  induction h with
  | finish =>
    rintro past gap rfl hg span hspan
    obtain rfl := List.mem_singleton.1 hspan
    exact ⟨gap, ⟨past, [], by simp, rfl, by simp⟩, hg⟩
  | layout hp hs hl _ ih =>
    rintro past gap rfl hg
    simpa using ih (List.append_assoc past gap _) (isGap_append_text hg hp hl)
  | @token before rest tokens e hp hs hl _ ih =>
    rintro past gap rfl hg span hspan
    rcases List.mem_cons.1 hspan with rfl | hspan
    · exact ⟨gap, ⟨past, e.text ++ rest, by simp, rfl, rfl⟩, hg⟩
    · simpa using ih (List.append_nil _).symm isGap_nil span (by simpa using hspan)

/-- The tokens of a text are exactly those that are scanned, and there are some if and only if scanning comes to the end
of the text. They stand in order, each with some text, and between them is only layout. -/
theorem ofText_exact (text : String) (file : Nat) (tokens : List Token) :
    (ofText text file = .ok tokens ↔ Scanned file [] text.toList tokens) ∧
      (Scanned file [] text.toList tokens → Lined file tokens ∧
        ∀ gap ∈ gapsFrom file Position.start (.behind text.toList) tokens,
          ∃ slice, gap.Covers text.toList slice ∧ IsGap slice) := by
  refine ⟨ofText_eq_ok_iff_scanned, fun h => ⟨lined_ofText (ofText_eq_ok_iff_scanned.2 h), ?_⟩⟩
  exact covers_of_mem_gapsFrom h (List.append_nil []).symm isGap_nil

/-- Marks of comments and of strings stand inside other elements. -/
theorem ofText_exact_marks :
    let text := "/*/ \" */a// '\n\"\\\"//\"'/*'-\t0"
    ∃ tokens, ofText text 7 = .ok tokens ∧ Scanned 7 [] text.toList tokens ∧ Lined 7 tokens ∧
      ∀ gap ∈ gapsFrom 7 Position.start (.behind text.toList) tokens,
        ∃ slice, gap.Covers text.toList slice ∧ IsGap slice := by
  intro text
  obtain ⟨tokens, h⟩ : ∃ tokens, ofText text 7 = .ok tokens := exists_of_isOk (by decide +kernel)
  obtain ⟨hscanned, hgaps⟩ := ofText_exact text 7 tokens
  exact ⟨tokens, h, hscanned.1 h, hgaps (hscanned.1 h)⟩

end Token

end SchemaLang
