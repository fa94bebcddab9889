import SchemaLang.Proofs.Literals
import SchemaLang.Proofs.WellFormed

/-!
# Printing schemas

The source text of a schema, in any layout.

* `Piece` is a piece of printed text: a mark, a word, a number, a string, a comment or a type, which is written as it is
  displayed. `Piece.contents` are the tokens that it should be read as.
* `Schema.pieces` prints a schema. A documentation is a comment; an empty one may be left out or not.
* `Layout` puts any white space between pieces, at least some where a word, a number or a type would run on.
* `Schema.Printable` says which schemas can be written: names are identifiers, numbers are in range, payloads have the
  form of their attribute.
* Main result: any layout of a printable schema is cut into the tokens of its pieces (`Layout.lexes`,
  `Schema.Printable.legible`).
-/

namespace SchemaLang

/-! ## Words -/

/-- An ASCII identifier that is no reserved word. -/
def IsIdentifier (w : String) : Prop := Element.IsWord w.toList ∧ isKeyword w = false

instance (w : String) : Decidable (IsIdentifier w) := inferInstanceAs (Decidable (_ ∧ _))

/-- A text that a comment can hold: no white space at its ends and no closing mark inside. -/
def IsDocumentation (d : String) : Prop := Text.trim d.toList = d.toList ∧ Element.Unclosing d.toList

instance (d : String) : Decidable (IsDocumentation d) := inferInstanceAs (Decidable (_ ∧ ¬ (_ <:+: _)))

theorem IsIdentifier.wordKind_eq {w : String} (h : IsIdentifier w) : Element.wordKind w.toList = .identifier := by
  obtain ⟨_, hk⟩ := h
  rw [isKeyword, Option.isSome_eq_false_iff, Option.isNone_iff_eq_none] at hk
  rw [Element.wordKind, String.ofList_toList, hk]
  rfl

/-- An identifier alone is read as an identifier. -/
theorem IsIdentifier.lexes {w : String} (h : IsIdentifier w) : Element.Lexes w.toList [(.identifier, w)] := by
  have hw := Element.Lexes.nil.word h.1 Element.ends_nil
  rwa [h.wordKind_eq, List.append_nil, String.ofList_toList] at hw

/-- A text that is read as an identifier if it stands alone is read as one in front of a text, where it ends. -/
theorem Element.Lexes.identifier {s : List Char} {cs : List (TokenKind × String)} {w : String} (h : Lexes s cs)
    (hw : Lexes w.toList [(.identifier, w)]) (hs : Ends s) : Lexes (w.toList ++ s) ((.identifier, w) :: cs) := by
  obtain ⟨es, hes, hc⟩ := hw
  obtain ⟨_, ha, _⟩ := split_eq_iff.1 hes
  obtain ⟨e, he, hec⟩ := List.mem_filterMap.1 (hc ▸ List.mem_singleton_self (TokenKind.identifier, w))
  have hp := ha.proper e he
  have hew : e.text = w.toList := text_eq_of_content? (t := ⟨.identifier, w, Span.zero⟩) hec rfl
  have hstops : e.Stops s := by
    intro c hcs
    cases e with
    | digits => exact (hs c hcs).2
    | word => exact (hs c hcs).1
    | lineComment | blanks => cases hec
    | blockComment | escapedString | rawString | mark => rfl
  rw [← hew]
  exact h.scan (scan?_text_append hp hstops) hec

theorem Scalar.isIdentifier_name (base : Scalar) : IsIdentifier base.name := by
  cases base <;> decide

/-! ## Types -/

namespace FieldType

/-- The tokens of the usual text of a type. -/
def contents : FieldType → List (TokenKind × String)
  | scalar base _ => [(.identifier, base.name)]
  | array element _ _ => element.contents ++ [(.openBracket, "["), (.closeBracket, "]")]
  | map key value _ =>
    (.map, "map") :: (.openBracket, "[") ::
      (key.contents ++ (.comma, ",") :: (value.contents ++ [(.closeBracket, "]")]))
  | defined name _ => [(.identifier, name)]

/-- The displayed text of a type is cut into the tokens of its usual text, if these texts are the same at all depths. -/
theorem lexes_display {s : List Char} {cs : List (TokenKind × String)} (t : FieldType)
    (hd : ∀ u ∈ t.parts, u.display = u.rendering)
    (hn : ∀ name ∈ t.definedNames, Element.Lexes name.toList [(.identifier, name)]) (h : Element.Lexes s cs)
    (hs : Element.Ends s) : Element.Lexes (t.display.toList ++ s) (t.contents ++ cs) := by
  induction t generalizing s cs with
  | scalar base span => exact h.identifier base.isIdentifier_name.lexes hs
  | array element span shown ih =>
    have hshown : shown = element.display ++ "[]" := hd _ List.mem_cons_self
    have hb : Element.Lexes ('[' :: ']' :: s) ((.openBracket, "[") :: (.closeBracket, "]") :: cs) := h.mark.mark
    have he := ih (fun u hu => hd u (List.mem_cons_of_mem _ hu)) hn hb Element.ends_cons
    simpa [contents, display, hshown] using he
  | map key value span ihk ihv =>
    have hk : ∀ u ∈ key.parts, u.display = u.rendering := fun u hu => hd u (by simp [parts, hu])
    have hv : ∀ u ∈ value.parts, u.display = u.rendering := fun u hu => hd u (by simp [parts, hu])
    simp only [definedNames, leaves, List.map_append, List.mem_append] at hn
    -- from the closing bracket back to the word
    have h₁ : Element.Lexes (']' :: s) ((.closeBracket, "]") :: cs) := h.mark
    have hgap : ∀ c ∈ [' '], Text.isBlank c = true := List.forall_mem_singleton.2 (by decide)
    have h₂ := (ihv hv (fun n hm => hn n (.inr hm)) h₁ Element.ends_cons).blanks hgap
    have h₃ : Element.Lexes (',' :: ([' '] ++ (value.display.toList ++ ']' :: s)))
        ((.comma, ",") :: (value.contents ++ (.closeBracket, "]") :: cs)) := h₂.mark
    have h₄ := ihk hk (fun n hm => hn n (.inl hm)) h₃ Element.ends_cons
    have h₅ : Element.Lexes ('[' :: _) ((.openBracket, "[") :: _) := h₄.mark
    have h₆ := h₅.word (w := ['m', 'a', 'p']) (by decide) Element.ends_cons
    have hw : Element.wordKind ['m', 'a', 'p'] = .map := rfl
    simpa [hw, contents, display] using h₆
  | defined name span => exact h.identifier (hn name (by simp [definedNames, leaves])) hs

end FieldType

/-! ## Pieces -/

/-- A piece of printed text. -/
inductive Piece where
  | mark (char : Char) (kind : TokenKind)
  | word (text : String)
  | number (digits : String)
  | string (text : String)
  | comment (text : String)
  | type (t : FieldType)

namespace Piece

/-- The text of a piece. -/
def text : Piece → List Char
  | mark char _ => [char]
  | word text => text.toList
  | number digits => digits.toList
  | string text => '"' :: (Element.escaped text.toList ++ ['"'])
  | comment text => '/' :: '*' :: ' ' :: (text.toList ++ [' ', '*', '/'])
  | type t => t.display.toList

/-- The tokens that a piece should be read as. -/
def contents : Piece → List (TokenKind × String)
  | mark char kind => [(kind, String.singleton char)]
  | word text => [(Element.wordKind text.toList, text)]
  | number digits => [(.number, digits)]
  | string text => [(.escapedString, text)]
  | comment text => [(.blockComment, text)]
  | type t => t.contents

/-- A piece that is read as its tokens. -/
def Legible : Piece → Prop
  | mark char kind => (char, kind) ∈ Element.marks
  | word text => Element.IsWord text.toList
  | number digits => digits.toList ≠ [] ∧ ∀ c ∈ digits.toList, c.isDigit = true
  | string _ => True
  | comment text => IsDocumentation text
  | type t => (∀ u ∈ t.parts, u.display = u.rendering) ∧ ∀ name ∈ t.definedNames, IsIdentifier name

@[simp] theorem legible_mark_iff {char : Char} {kind : TokenKind} :
    (mark char kind).Legible ↔ (char, kind) ∈ Element.marks := Iff.rfl

@[simp] theorem legible_word_iff {text : String} : (word text).Legible ↔ Element.IsWord text.toList := Iff.rfl

/-- A text that may follow a piece directly. -/
def Fits (s : List Char) : Piece → Prop
  | word _ | number _ | type _ => Element.Ends s
  | _ => True

variable {s : List Char} {cs : List (TokenKind × String)}

theorem fits_of_ends (h : Element.Ends s) (p : Piece) : p.Fits s := by
  cases p <;> first | exact h | trivial

/-- White space may follow every piece. -/
theorem fits_of_isBlank {c : Char} (hc : Text.isBlank c = true) (p : Piece) : p.Fits (c :: s) :=
  p.fits_of_ends (Element.ends_cons (Element.plain_of_isBlank hc).2)

theorem Legible.lexes {p : Piece} (hp : p.Legible) (hf : p.Fits s) (h : Element.Lexes s cs) :
    Element.Lexes (p.text ++ s) (p.contents ++ cs) := by
  cases p with
  | mark char kind => exact h.mark hp
  | word w => simpa [text, contents] using h.word hp hf
  | number digits => simpa [text, contents] using h.number hp.1 hp.2 hf
  | string w => simpa [text, contents] using h.string (Element.writes_escaped w.toList)
  | comment w => simpa [text, contents] using h.comment hp.1 hp.2
  | type t => exact t.lexes_display hp.1 (fun name hn => (hp.2 name hn).lexes) h hf

end Piece

/-- A text of pieces in order, with any white space between, before and after them. -/
inductive Layout : List Piece → List Char → Prop
  | nil {gap : List Char} (blank : ∀ c ∈ gap, Text.isBlank c = true) : Layout [] gap
  | cons {gap rest : List Char} {p : Piece} {ps : List Piece} (blank : ∀ c ∈ gap, Text.isBlank c = true)
      (fits : p.Fits rest) (following : Layout ps rest) : Layout (p :: ps) (gap ++ (p.text ++ rest))

/-- Legible pieces are read as their tokens, however they are laid out. -/
theorem Layout.lexes {ps : List Piece} {s : List Char} (h : Layout ps s) (hp : ∀ p ∈ ps, p.Legible) :
    Element.Lexes s (ps.flatMap Piece.contents) := by
  induction h with
  | nil blank => simpa using Element.Lexes.nil.blanks blank
  | cons blank fits following ih =>
    have hs := ih fun q hq => hp q (List.mem_cons_of_mem _ hq)
    exact ((hp _ List.mem_cons_self).lexes fits hs).blanks blank

/-- The layout with a space before each piece. -/
def Piece.spaced (ps : List Piece) : List Char := ps.flatMap fun p => ' ' :: p.text

theorem Layout.spaced : ∀ ps : List Piece, Layout ps (Piece.spaced ps)
  | [] => .nil (List.forall_mem_nil _)
  | p :: ps => by
    have hgap : ∀ c ∈ [' '], Text.isBlank c = true := List.forall_mem_singleton.2 (by decide)
    have hfits : p.Fits (Piece.spaced ps) := by
      cases ps with
      | nil => exact p.fits_of_ends Element.ends_nil
      | cons q qs => exact p.fits_of_isBlank (by decide)
    exact .cons hgap hfits (Layout.spaced ps)

/-! ## Attributes -/

namespace Attribute

/-- An attribute with a payload of the form that is read. -/
def Printable : Attribute → Prop
  | opcode value true => value.toList ≠ [] ∧ ∀ c ∈ value.toList, c.isDigit = true
  | authorize permissions => ∀ p ∈ permissions, p.toList ≠ [] ∧ Text.trim p.toList = p.toList ∧ ',' ∉ p.toList
  | _ => True

/-- The printed payload of an attribute. -/
def argument : Attribute → Option Piece
  | deprecated reason => some (.string reason)
  | opcode value true => some (.number value)
  | opcode value false => some (.string value)
  | query value => some (.string value)
  | command => none
  | authorize permissions => some (.string (String.ofList (Text.join [','] (permissions.map String.toList))))

/-- A printed attribute. -/
def pieces (a : Attribute) : List Piece :=
  [.mark '[' .openBracket, .word a.keyword] ++
    a.argument.elim [] (fun p => [.mark '(' .openParenthesis, p, .mark ')' .closeParenthesis]) ++
      [.mark ']' .closeBracket]

theorem isIdentifier_keyword (a : Attribute) : IsIdentifier a.keyword := by
  cases a <;> rw [keyword] <;> decide

theorem Printable.legible_argument {a : Attribute} (h : a.Printable) : ∀ p ∈ a.argument, p.Legible := by
  intro p hp
  cases a with
  | opcode value isNumber =>
    cases isNumber <;> cases hp
    · trivial
    · exact h
  | command => cases hp
  | deprecated | query | authorize => cases hp; trivial

theorem Printable.legible {a : Attribute} (h : a.Printable) : ∀ p ∈ a.pieces, p.Legible := by
  have hk := a.isIdentifier_keyword.1
  have ha := h.legible_argument
  cases hp : a.argument with
  | none => simp [pieces, hp, hk, Element.marks]
  | some q => simp [pieces, hp, hk, ha q hp, Element.marks]

end Attribute

/-! ## Definitions -/

/-- A printed documentation. An empty one is left out unless all are printed. -/
def Piece.documentation (all : Bool) (d : String) : List Piece := if d = "" ∧ all = false then [] else [.comment d]

theorem Piece.legible_documentation (all : Bool) {d : String} (h : IsDocumentation d) :
    ∀ p ∈ Piece.documentation all d, p.Legible := by
  rw [Piece.documentation]
  split
  · exact List.forall_mem_nil _
  · exact List.forall_mem_singleton.2 h

namespace Field

/-- A field that can be written in a definition of a kind, in a schema with the given names. -/
structure Printable (names : List String) (kind : DefinitionKind) (f : Field) : Prop
    extends WellFormed names kind f where
  isIdentifier_name : IsIdentifier f.name
  value_nonneg : 0 ≤ f.value
  value_lt : f.value < 2147483648
  documented : IsDocumentation f.documentation

/-- The printed number of a field. -/
def number (f : Field) : Piece := .number (String.ofList (Text.signedDecimal f.value))

/-- A printed field without its documentation and its attribute. -/
def bodyPieces (f : Field) : DefinitionKind → List Piece
  | .enum => [.word f.name, .mark '=' .equals, f.number]
  | .struct => [.type f.type, .word f.name]
  | .message => [f.number, .mark '-' .hyphen, .mark '>' .greater, .type f.type, .word f.name]

theorem legible_number {f : Field} (h : 0 ≤ f.value) : f.number.Legible := by
  obtain ⟨n, hn⟩ := Int.eq_ofNat_of_zero_le h
  rw [number, hn, Piece.Legible, String.toList_ofList]
  exact ⟨Nat.toDigits_ne_nil, fun c hc => Text.isDigit_of_mem_decimal hc⟩

/-- A printed field. -/
def pieces (all : Bool) (kind : DefinitionKind) (f : Field) : List Piece :=
  Piece.documentation all f.documentation ++ f.deprecated.elim [] Attribute.pieces ++ f.bodyPieces kind ++
    [.mark ';' .semicolon]

theorem Printable.legible_type {names : List String} {kind : DefinitionKind} {f : Field} (h : f.Printable names kind)
    (hn : ∀ name ∈ names, IsIdentifier name) : (Piece.type f.type).Legible :=
  ⟨h.display_eq, fun name hm => hn name (h.defined_mem name hm)⟩

theorem Printable.legible {names : List String} {kind : DefinitionKind} {f : Field} (h : f.Printable names kind)
    (hn : ∀ name ∈ names, IsIdentifier name) (all : Bool) : ∀ p ∈ f.pieces all kind, p.Legible := by
  have hd := Piece.legible_documentation all h.documented
  have ha : ∀ p ∈ f.deprecated.elim [] Attribute.pieces, p.Legible := by
    cases hf : f.deprecated with
    | none => simp
    | some a =>
      obtain ⟨reason, rfl⟩ := h.deprecated_eq a hf
      exact Attribute.Printable.legible (a := .deprecated reason) trivial
  have hb : ∀ p ∈ f.bodyPieces kind, p.Legible := by
    have hw := h.isIdentifier_name.1
    have hv := legible_number h.value_nonneg
    have ht := h.legible_type hn
    cases kind <;> simp [bodyPieces, hw, hv, ht, Element.marks]
  simp only [pieces, List.forall_mem_append]
  exact ⟨⟨⟨hd, ha⟩, hb⟩, by simp [Element.marks]⟩

end Field

namespace Definition

/-- A definition that can be written in a schema with the given names. -/
structure Printable (names : List String) (d : Definition) : Prop where
  isIdentifier_name : IsIdentifier d.name
  documented : IsDocumentation d.documentation
  attributes : ∀ a ∈ d.attributes, a.Printable
  fields : ∀ f ∈ d.fields, f.Printable names d.kind

/-- A printed definition. -/
def pieces (all : Bool) (d : Definition) : List Piece :=
  Piece.documentation all d.documentation ++ d.attributes.flatMap Attribute.pieces ++
    (if d.isReadOnly then [.word "readonly"] else []) ++
      [.word d.kind.keyword, .word d.name, .mark '\x7b' .openBrace] ++
        d.fields.flatMap (Field.pieces all d.kind) ++ [.mark '\x7d' .closeBrace]

theorem Printable.legible {names : List String} {d : Definition} (h : d.Printable names)
    (hn : ∀ name ∈ names, IsIdentifier name) (all : Bool) : ∀ p ∈ d.pieces all, p.Legible := by
  have hd := Piece.legible_documentation all h.documented
  have ha : ∀ p ∈ d.attributes.flatMap Attribute.pieces, p.Legible := by
    intro p hp
    obtain ⟨a, hm, hp⟩ := List.mem_flatMap.1 hp
    exact (h.attributes a hm).legible p hp
  have hf : ∀ p ∈ d.fields.flatMap (Field.pieces all d.kind), p.Legible := by
    intro p hp
    obtain ⟨f, hm, hp⟩ := List.mem_flatMap.1 hp
    exact (h.fields f hm).legible hn all p hp
  have hr : Element.IsWord "readonly".toList := by decide
  have hk : Element.IsWord d.kind.keyword.toList := by cases d.kind <;> decide
  have hw := h.isIdentifier_name.1
  simp only [pieces, List.forall_mem_append]
  refine ⟨⟨⟨⟨⟨hd, ha⟩, ?_⟩, ?_⟩, hf⟩, ?_⟩
  · split
    · exact List.forall_mem_singleton.2 hr
    · exact List.forall_mem_nil _
  · simp [hk, hw, Element.marks]
  · simp [Element.marks]

end Definition

namespace Schema

/-- A schema that can be written. -/
structure Printable (s : Schema) : Prop where
  names_nodup : (s.definitions.map Definition.name).Nodup
  definitions : ∀ d ∈ s.definitions, d.Printable (s.definitions.map Definition.name)

/-- A printed schema. -/
def pieces (all : Bool) (s : Schema) : List Piece := s.definitions.flatMap (Definition.pieces all)

theorem Printable.legible {s : Schema} (h : s.Printable) (all : Bool) : ∀ p ∈ s.pieces all, p.Legible := by
  have hn : ∀ name ∈ s.definitions.map Definition.name, IsIdentifier name := by
    intro name hm
    obtain ⟨d, hd, rfl⟩ := List.mem_map.1 hm
    exact (h.definitions d hd).isIdentifier_name
  intro p hp
  obtain ⟨d, hd, hp⟩ := List.mem_flatMap.1 hp
  exact (h.definitions d hd).legible hn all p hp

end Schema

/-! ## A schema that can be written -/

/-- A field with a nested type and a payload that has to be escaped, in a definition of the name `A`. -/
def Field.specimen : Field where
  name := "m"
  type := .map (.scalar .string Span.zero) (.array (.defined "A" Span.zero) Span.zero "A[]") Span.zero
  span := Span.zero
  deprecated := some (.deprecated "\\\"\n*/")
  value := 2147483647
  documentation := ""

/-- A schema with this field. -/
def Schema.specimen : Schema where
  ns := "N"
  definitions := [⟨"A", .message, true, Span.zero, "a \"b\"", [.opcode "0123" true, .authorize ["x", "y z"]],
    [Field.specimen]⟩]

theorem Field.printable_specimen : specimen.Printable ["A"] .message where
  key_isScalar key value span h := by
    simp only [specimen, FieldType.parts, List.mem_cons, List.cons_append, List.nil_append, FieldType.map.injEq,
      reduceCtorEq, List.not_mem_nil, or_false] at h
    rw [h.1]
    rfl
  display_eq := by simp [specimen, FieldType.parts, FieldType.display, FieldType.rendering]
  defined_mem := by decide
  defined_ne name h base := by
    obtain rfl : name = "A" := by simpa [specimen, FieldType.definedNames, FieldType.leaves] using h
    cases base <;> decide
  name_free := by decide
  struct_value h := by cases h
  enum_type h := by cases h
  deprecated_eq a h := ⟨_, (Option.some.inj h).symm⟩
  isIdentifier_name := by decide
  value_nonneg := by decide
  value_lt := by decide
  documented := by decide +kernel

theorem Schema.printable_specimen : specimen.Printable where
  names_nodup := by decide
  definitions := by
    refine List.forall_mem_singleton.2 ⟨by decide, by decide +kernel, ?_, ?_⟩
    · refine List.forall_mem_cons.2 ⟨⟨by decide, List.all_eq_true.1 (by decide)⟩, List.forall_mem_singleton.2 ?_⟩
      refine List.forall_mem_cons.2 ⟨⟨by decide, by decide, by decide⟩, List.forall_mem_singleton.2 ?_⟩
      exact ⟨by decide, by decide, by decide⟩
    · exact List.forall_mem_singleton.2 Field.printable_specimen

end SchemaLang
