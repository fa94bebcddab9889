import SchemaLang.Proofs.Exactness
import SchemaLang.Proofs.Layout

/-!
# Other layout between the same tokens

The layout between the tokens of a text can be replaced.

* `Element.Spacing` are the runs of white space and line comments with their line feeds. In front of a text that does
  not start with white space, such a run is cut into elements that are layout (`Element.Spacing.cutAsLayout`).
* An element that is a token does not start with white space, and it ends in front of any such run
  (`Element.stops_of_spacing`).
* `Token.weave` puts slices of a text behind each other, with gaps in front of them, between them and behind them, and
  `Token.Sliced` says which slices of a text are its tokens.
* If there is some spacing between any two of them, elements that are tokens are found again
  (`Token.exists_elements_weave`).
* Main result: `Token.ofText_weave`.
-/

namespace SchemaLang

/-! ## Runs of layout -/

namespace Element

/-- White space and line comments, each with the line feed that ends it. -/
inductive Spacing : List Char → Prop
  | nil : Spacing []
  | blank {c : Char} {s : List Char} (isBlank : Text.isBlank c = true) (behind : Spacing s) : Spacing (c :: s)
  | comment {body s : List Char} (line : '\n' ∉ body) (behind : Spacing s) :
    Spacing ('/' :: '/' :: (body ++ '\n' :: s))

variable {e : Element} {s rest : List Char} {c : Char}

/-- An element that is a token starts with a character that is no white space. -/
theorem isBlank_of_head_text (hp : e.Proper) (hl : e.isLayout = false) (hc : c ∈ (e.text ++ rest).head?) :
    Text.isBlank c = false := by
  have hne := text_ne_nil hp
  have hc : c ∈ e.text.head? := by rwa [List.head?_append_of_ne_nil _ hne] at hc
  have hm := List.mem_of_head? hc
  refine Bool.eq_false_iff.2 fun hb => ?_
  obtain ⟨⟨hslash, hdouble, hsingle⟩, hword, hdigit⟩ := plain_of_isBlank hb
  cases e with
  | blockComment => exact hslash (Option.some.inj hc).symm
  | escapedString => exact hdouble (Option.some.inj hc).symm
  | rawString => exact hsingle (Option.some.inj hc).symm
  | digits w => exact Bool.false_ne_true (hdigit.symm.trans (hp.2 c hm))
  | word w => exact Bool.false_ne_true (hword.symm.trans (List.all_eq_true.1 hp.2 c hm))
  | mark d kind =>
    obtain rfl := Option.some.inj hc
    obtain ⟨_, _, _, hd, _⟩ := classes_of_mem_marks hp
    exact Bool.false_ne_true (hd.symm.trans hb)
  | lineComment | blanks => cases hl

/-- An element that is a token does not go on with white space or with a slash. -/
theorem continues_of_isLayout (hl : e.isLayout = false) (hc : Text.isBlank c = true ∨ c = '/') :
    e.continues c = false := by
  have hclass : isWordChar c = false ∧ Text.isDecimalDigit c = false := by
    rcases hc with hb | rfl
    · exact (plain_of_isBlank hb).2
    · decide
  cases e with
  | digits => exact hclass.2
  | word => exact hclass.1
  | lineComment | blanks => cases hl
  | blockComment | escapedString | rawString | mark => rfl

/-- An element that is a token ends in front of layout. -/
theorem stops_of_spacing (hl : e.isLayout = false) (h : Spacing s) (hne : s ≠ []) : e.Stops (s ++ rest) := by
  intro d hd
  cases h with
  | nil => exact absurd rfl hne
  | blank hb =>
    obtain rfl := Option.some.inj hd
    exact continues_of_isLayout hl (.inl hb)
  | comment =>
    obtain rfl := Option.some.inj hd
    exact continues_of_isLayout hl (.inr rfl)

/-- A text that is cut into elements that are layout, in front of another text. -/
def CutAsLayout (s rest : List Char) : Prop :=
  ∃ es, Adjacent es rest ∧ es.flatMap text = s ∧ ∀ e ∈ es, e.isLayout = true

/-- White space in front belongs to the white space that comes first, or is an element of its own. -/
theorem CutAsLayout.blank (h : CutAsLayout s rest) (hc : Text.isBlank c = true)
    (hrest : ∀ d ∈ rest.head?, Text.isBlank d = false) : CutAsLayout (c :: s) rest := by
  obtain ⟨es, ha, rfl, hl⟩ := h
  have hown : (blanks [c]).Proper := ⟨by simp, by simpa using hc⟩
  cases es with
  | nil => exact ⟨[blanks [c]], ⟨hown, hrest, trivial⟩, rfl, by simp [isLayout]⟩
  | cons e es =>
    obtain ⟨hp, hs, ha⟩ := ha
    obtain ⟨he, hes⟩ := List.forall_mem_cons.1 hl
    cases e with
    | blanks w =>
      have hproper : (blanks (c :: w)).Proper := ⟨by simp, List.forall_mem_cons.2 ⟨hc, hp.2⟩⟩
      exact ⟨blanks (c :: w) :: es, ⟨hproper, hs, ha⟩, rfl, List.forall_mem_cons.2 ⟨rfl, hes⟩⟩
    | lineComment body =>
      have hslash : (blanks [c]).Stops ((lineComment body :: es).flatMap text ++ rest) := by
        intro d hd
        obtain rfl := Option.some.inj hd
        show Text.isBlank '/' = false
        decide
      exact ⟨blanks [c] :: lineComment body :: es, ⟨hown, hslash, hp, hs, ha⟩, rfl, List.forall_mem_cons.2 ⟨rfl, hl⟩⟩
    | _ => cases he

/-- A line comment ends in front of its line feed. -/
theorem CutAsLayout.comment {body : List Char} (h : CutAsLayout ('\n' :: s) rest) (hb : '\n' ∉ body) :
    CutAsLayout ('/' :: '/' :: (body ++ '\n' :: s)) rest := by
  obtain ⟨es, ha, htext, hl⟩ := h
  refine ⟨lineComment body :: es, ⟨hb, ?_, ha⟩, ?_, List.forall_mem_cons.2 ⟨rfl, hl⟩⟩
  · rw [htext]
    intro d hd
    obtain rfl := Option.some.inj hd
    rfl
  · rw [List.flatMap_cons, htext]
    rfl

/-- Spacing is cut into elements that are layout, if the text behind it does not start with white space. -/
theorem Spacing.cutAsLayout (h : Spacing s) (hrest : ∀ d ∈ rest.head?, Text.isBlank d = false) :
    CutAsLayout s rest := by
  induction h with
  | nil => exact ⟨[], trivial, rfl, by simp⟩
  | blank hc _ ih => exact ih.blank hc hrest
  | comment hb _ ih => exact (ih.blank (by decide) hrest).comment hb

end Element

/-! ## Slices and gaps -/

namespace Token

open Element

variable {file : Nat} {text : String} {tokens : List Token}

/-- Slices with a gap behind each, and a gap in front of the first. -/
def weave (front : List Char) : List (List Char × List Char) → List Char
  | [] => front
  | (slice, gap) :: ps => front ++ (slice ++ weave gap ps)

/-- The slices of a text that its tokens cover. -/
def Sliced (s : List Char) (tokens : List Token) (slices : List (List Char)) : Prop :=
  List.Forall₂ (fun t slice => t.span.Covers s slice) tokens slices

theorem weave_append (s front : List Char) (ps : List (List Char × List Char)) :
    weave (s ++ front) ps = s ++ weave front ps := by
  cases ps with
  | nil => rfl
  | cons p ps => exact List.append_assoc s front _

theorem Sliced.unique {s : List Char} {slices slices' : List (List Char)} (h : Sliced s tokens slices)
    (h' : Sliced s tokens slices') : slices = slices' := by
  induction h generalizing slices' with
  | nil =>
    cases h'
    rfl
  | cons hc _ ih =>
    cases h' with
    | cons hc' h' => rw [hc.unique hc', ih h']

/-- The tokens of elements cover the texts of those that are no layout. -/
theorem sliced_ofElements {es : List Element} (hp : ∀ e ∈ es, e.Proper) (before : List Char) :
    Sliced (before ++ es.flatMap Element.text) (ofElements file (.behind before) es)
      ((es.filter fun e => !e.isLayout).map Element.text) := by
  induction es generalizing before with
  | nil => exact .nil
  | cons e es ih =>
    obtain ⟨he, hes⟩ := List.forall_mem_cons.1 hp
    have hrest := ih hes (before ++ e.text)
    rw [List.append_assoc, ← List.flatMap_cons] at hrest
    rw [ofElements_behind he]
    cases hl : e.isLayout with
    | true => simpa [hl] using hrest
    | false =>
      rw [if_neg Bool.false_ne_true, List.filter_cons_of_pos (by simp [hl])]
      exact .cons ⟨before, es.flatMap Element.text, by simp, rfl, rfl⟩ hrest

/-- Elements are slices with layout in the gaps. -/
theorem exists_weave {es : List Element} (hp : ∀ e ∈ es, e.Proper) :
    ∃ front ps, es.flatMap Element.text = weave front ps ∧
      ps.map Prod.fst = (es.filter fun e => !e.isLayout).map Element.text ∧ IsGap front ∧ ∀ p ∈ ps, IsGap p.2 := by
  induction es with
  | nil => exact ⟨[], [], rfl, rfl, isGap_nil, by simp⟩
  | cons e es ih =>
    obtain ⟨he, hes⟩ := List.forall_mem_cons.1 hp
    obtain ⟨front, ps, htext, hslices, hfront, hps⟩ := ih hes
    cases hl : e.isLayout with
    | true =>
      obtain ⟨gap, hgap, rfl⟩ := hfront
      refine ⟨e.text ++ gap.flatMap Element.text, ps, ?_, by simpa [hl] using hslices, ⟨e :: gap, ?_, rfl⟩, hps⟩
      · rw [List.flatMap_cons, htext, weave_append]
      · exact List.forall_mem_cons.2 ⟨⟨he, hl⟩, hgap⟩
    | false =>
      refine ⟨[], (e.text, front) :: ps, ?_, by simp [hl, hslices], isGap_nil, ?_⟩
      · rw [List.flatMap_cons, htext]
        rfl
      · exact List.forall_mem_cons.2 ⟨hfront, hps⟩

/-- Elements that are tokens are found again if there is spacing between them. -/
theorem exists_elements_weave {fs : List Element} (hfs : ∀ f ∈ fs, f.Proper ∧ f.isLayout = false) {front : List Char}
    {ps : List (List Char × List Char)} (hslices : ps.map Prod.fst = fs.map Element.text) (hfront : Spacing front)
    (hps : ∀ p ∈ ps, Spacing p.2) (hinner : ∀ p ∈ ps.dropLast, p.2 ≠ []) :
    ∃ es, Adjacent es [] ∧ es.flatMap Element.text = weave front ps ∧ (es.filter fun e => !e.isLayout) = fs := by
  induction ps generalizing fs front with
  | nil =>
    obtain rfl : fs = [] := List.map_eq_nil_iff.1 hslices.symm
    have hnil : ∀ c ∈ ([] : List Char).head?, Text.isBlank c = false := by simp
    obtain ⟨es, ha, htext, hl⟩ := hfront.cutAsLayout hnil
    exact ⟨es, ha, htext, List.filter_eq_nil_iff.2 (by simpa using hl)⟩
  | cons p ps ih =>
    obtain ⟨slice, gap⟩ := p
    obtain ⟨f, fs, rfl, rfl, hrest⟩ := List.map_eq_cons_iff.1 hslices.symm
    obtain ⟨⟨hproper, hlayout⟩, hfs⟩ := List.forall_mem_cons.1 hfs
    obtain ⟨hgap, hps⟩ := List.forall_mem_cons.1 hps
    have hstops : f.Stops (weave gap ps) := by
      cases ps with
      | nil =>
        by_cases hne : gap = []
        · rw [hne]
          exact fun c hc => absurd hc (by simp [weave])
        · have hs : f.Stops (gap ++ []) := stops_of_spacing hlayout hgap hne
          rwa [List.append_nil] at hs
      | cons q ps => exact stops_of_spacing hlayout hgap (hinner _ List.mem_cons_self)
    have hinner' : ∀ p ∈ ps.dropLast, p.2 ≠ [] := by
      cases ps with
      | nil => simp
      | cons q ps => exact fun p hp => hinner p (List.mem_cons_of_mem _ hp)
    have hhead : ∀ c ∈ (f.text ++ weave gap ps).head?, Text.isBlank c = false := fun _ hc =>
      isBlank_of_head_text hproper hlayout hc
    obtain ⟨es₁, ha₁, htext₁, hl₁⟩ := hfront.cutAsLayout hhead
    obtain ⟨es₂, ha₂, htext₂, hl₂⟩ := ih hfs hrest.symm hgap hps hinner'
    refine ⟨es₁ ++ f :: es₂, adjacent_append.2 ⟨?_, hproper, ?_, ha₂⟩, ?_, ?_⟩
    · rwa [List.append_nil, List.flatMap_cons, htext₂]
    · rwa [List.append_nil, htext₂]
    · rw [List.flatMap_append, List.flatMap_cons, htext₁, htext₂]
      rfl
    · have hnone : (es₁.filter fun e => !e.isLayout) = [] := List.filter_eq_nil_iff.2 (by simpa using hl₁)
      rw [List.filter_append, hnone, List.nil_append, List.filter_cons_of_pos (by simp [hlayout]), hl₂]

/-- The layout of a text can be replaced. -/
theorem ofText_weave (h : ofText text file = .ok tokens) :
    (∃ front ps, text.toList = weave front ps ∧ Sliced text.toList tokens (ps.map Prod.fst) ∧ IsGap front ∧
      ∀ p ∈ ps, IsGap p.2) ∧
    ∀ front ps, Sliced text.toList tokens (ps.map Prod.fst) → Spacing front → (∀ p ∈ ps, Spacing p.2) →
      (∀ p ∈ ps.dropLast, p.2 ≠ []) → ∃ us, ofText (String.ofList (weave front ps)) file = .ok us ∧
        us.map content = tokens.map content ∧ Sliced (weave front ps) us (ps.map Prod.fst) := by
  obtain ⟨es, hes, rfl⟩ := ofText_eq_ok_iff.1 h
  obtain ⟨htext, ha, _⟩ := split_eq_iff.1 hes
  rw [List.append_nil] at htext
  have hsliced : Sliced text.toList (ofElements file Position.start es)
      ((es.filter fun e => !e.isLayout).map Element.text) := by
    rw [htext]
    exact sliced_ofElements ha.proper []
  constructor
  · obtain ⟨front, ps, hweave, hslices, hfront, hps⟩ := exists_weave ha.proper
    exact ⟨front, ps, htext.trans hweave, by rwa [hslices], hfront, hps⟩
  · intro front ps hps hfront hgaps hinner
    have hfs : ∀ f ∈ es.filter fun e => !e.isLayout, f.Proper ∧ f.isLayout = false := by
      intro f hf
      obtain ⟨hf, hl⟩ := List.mem_filter.1 hf
      exact ⟨ha.proper f hf, by simpa using hl⟩
    obtain ⟨fs, hfa, hftext, hfilter⟩ := exists_elements_weave hfs (hps.unique hsliced) hfront hgaps hinner
    have hsplit : split (String.ofList (weave front ps)).toList = (fs, []) := by
      rw [String.toList_ofList]
      exact split_eq_iff.2 ⟨by rw [hftext, List.append_nil], hfa, rfl⟩
    refine ⟨ofElements file Position.start fs, ofText_eq_ok_iff.2 ⟨fs, hsplit, rfl⟩, ?_, ?_⟩
    · rw [content_ofElements, content_ofElements, ← filterMap_content?_filter, hfilter, filterMap_content?_filter]
    · have hnew : Sliced _ (ofElements file Position.start fs) _ := sliced_ofElements hfa.proper []
      rwa [hfilter, List.nil_append, hftext, ← hps.unique hsliced] at hnew

/-- Comments with marks of strings and comments in them, around a word and a string that stood side by side. -/
theorem ofText_weave_marks :
    let text := "x\"y\""
    let respaced := "// /*'\nx\u2003//\"\n\"y\"//\n"
    ∃ tokens us, ofText text 2 = .ok tokens ∧ ofText respaced 2 = .ok us ∧ us.map content = tokens.map content ∧
      us.map content = [(.identifier, "x"), (.escapedString, "y")] := by
  intro text respaced
  let x : Token := ⟨.identifier, "x", ⟨2, ⟨0, 1, 1⟩, ⟨1, 1, 2⟩⟩⟩
  let y : Token := ⟨.escapedString, "y", ⟨2, ⟨1, 1, 2⟩, ⟨4, 1, 5⟩⟩⟩
  let ps := [(['x'], ['\u2003', '/', '/', '"', '\n']), (['"', 'y', '"'], ['/', '/', '\n'])]
  have h : ofText text 2 = .ok [x, y] := by decide +kernel
  have hps : Sliced text.toList [x, y] (ps.map Prod.fst) :=
    .cons ⟨[], ['"', 'y', '"'], by decide +kernel⟩ (.cons ⟨['x'], [], by decide +kernel⟩ .nil)
  have hfront : Spacing ('/' :: '/' :: ([' ', '/', '*', '\''] ++ ['\n'])) := .comment (by decide) .nil
  have hx : Spacing ('\u2003' :: '/' :: '/' :: (['"'] ++ ['\n'])) := .blank (by decide) (.comment (by decide) .nil)
  have hy : Spacing ('/' :: '/' :: ([] ++ ['\n'])) := .comment (by decide) .nil
  obtain ⟨us, hus, hcontent, _⟩ := (ofText_weave h).2 _ ps hps hfront
    (List.forall_mem_cons.2 ⟨hx, List.forall_mem_singleton.2 hy⟩) (by decide)
  exact ⟨[x, y], us, h, hus, hcontent, hcontent⟩

end Token

end SchemaLang
