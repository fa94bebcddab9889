import SchemaLang.Proofs.Spelling

/-!
# Places that nest

The spans of a schema are arranged as the text that they cover.

* `Span.Inside` and `Span.InFrontOf` compare spans of one source. `Span.RunsFrom` says of a span that the text there
  goes from a name to a mark.
* The tokens of a text are in order, so parts that are written one after the other are in order
  (`Token.Lined.pairwise`), and what is between two tokens is inside the span of both
  (`Token.Lined.start_le_of_mem`, `Token.Lined.stop_le_of_mem`).
* `FieldType.Nested` says it of the types inside a type, at all depths (`FieldType.Derivation.nested`).
* `FieldType.ReadsBack` says of a type in a text that the text at its place, by itself, is read as this type again.
* `Definition.Nested` says it of the fields of a definition and of their types. The type of a constant is not written;
  it has the place of the name of the enum.
* Main result: `Schema.nested_ofText`. The type of a constant is not read back
  (`Schema.not_readsBack_of_constant`).
-/

namespace SchemaLang

open Token (Lined)

/-! ## Spans that nest -/

namespace Span

/-- A span within another of the same source. -/
def Inside (a b : Span) : Prop :=
  a.file = b.file ∧ b.start.offset ≤ a.start.offset ∧ a.stop.offset ≤ b.stop.offset

/-- A span that ends before another of the same source starts. -/
def InFrontOf (a b : Span) : Prop := a.file = b.file ∧ a.stop.offset ≤ b.start.offset

/-- A span of a text from a name to a mark. -/
def RunsFrom (text : String) (span : Span) (name : String) (mark : Char) : Prop :=
  span.file = 0 ∧ ∃ slice, span.Covers text.toList slice ∧ name.toList <+: slice ∧ [mark] <:+ slice

end Span

/-- In a type, the elements, keys and values are inside, and the keys are in front of the values. -/
def FieldType.Nested : FieldType → Prop
  | scalar _ _ | defined _ _ => True
  | array element span _ => element.span.Inside span ∧ element.Nested
  | map key value span =>
    key.span.Inside span ∧ value.span.Inside span ∧ key.span.InFrontOf value.span ∧ key.Nested ∧ value.Nested

/-- A type that is read again from the text at its place, with the same shape and displayed in the same way. -/
def FieldType.ReadsBack (text : String) (t : FieldType) : Prop :=
  ∃ slice u, t.span.Covers text.toList slice ∧ WrittenAs u slice ∧ u.sameShape t = true ∧ u.display = t.display

/-- The type of a field of a definition, in front of the name of the field. -/
structure Field.TypeNested (text : String) (d : Definition) (f : Field) : Prop where
  inside : f.type.span.Inside d.span
  first : f.type.span.InFrontOf f.span
  nested : f.type.Nested
  readsBack : ∀ t ∈ f.type.parts, t.ReadsBack text

/-- A field inside a definition. The type of a constant is not written. -/
structure Field.Nested (text : String) (d : Definition) (f : Field) : Prop where
  runs : f.span.RunsFrom text f.name ';'
  inside : f.span.Inside d.span
  type : d.kind ≠ .enum → f.TypeNested text d
  constant : d.kind = .enum → ∃ span : Span, f.type = .scalar .uint32 span ∧ span.start = d.span.start ∧
    span.Covers text.toList d.name.toList

/-- A definition whose fields, and the types in them, are arranged as in a text. -/
structure Definition.Nested (text : String) (d : Definition) : Prop where
  runs : d.span.RunsFrom text d.name '\x7d'
  fields : ∀ f ∈ d.fields, f.Nested text d
  ordered : d.fields.Pairwise fun f g => f.span.InFrontOf g.span
  types_ordered : d.kind ≠ .enum → d.fields.Pairwise fun f g => f.span.InFrontOf g.type.span

/-! ## Tokens in order -/

namespace Token.Lined

variable {file : Nat} {ts : List Token} {t first last : Token}

theorem start_le_of_mem (h : Lined file ts) (hf : first ∈ ts.head?) (ht : t ∈ ts) :
    first.span.start.offset ≤ t.span.start.offset := by
  obtain ⟨us, rfl⟩ := List.head?_eq_some_iff.1 hf
  rcases List.mem_cons.1 ht with rfl | ht
  · exact Nat.le_refl _
  · exact (h.sublist (List.cons_sublist_cons.2 (List.singleton_sublist.2 ht))).start_le

theorem stop_le {us : List Token} {a b : Token} (h : Lined file (ts ++ us)) (ha : a ∈ ts) (hb : b ∈ us) :
    a.span.stop.offset ≤ b.span.start.offset :=
  (List.pairwise_append.1 h.ordered).2.2 a ha b hb

theorem stop_le_of_mem (h : Lined file ts) (hl : last ∈ ts.getLast?) (ht : t ∈ ts) :
    t.span.stop.offset ≤ last.span.stop.offset := by
  obtain ⟨us, rfl⟩ := List.getLast?_eq_some_iff.1 hl
  rcases List.mem_append.1 ht with hu | hu
  · have hle := h.stop_le hu List.mem_cons_self
    have hlt := h.filled last (by simp)
    omega
  · obtain rfl := List.mem_singleton.1 hu
    exact Nat.le_refl _

/-- Stretches of tokens one after the other are in order. -/
theorem pairwise {α : Type} {f : α → List Token} {as : List α} (h : Lined file (as.flatMap f)) :
    as.Pairwise fun a b => ∀ t ∈ f a, ∀ u ∈ f b, t.span.stop.offset ≤ u.span.start.offset :=
  (List.pairwise_flatMap.1 h.ordered).2

end Token.Lined

/-! ## Types -/

namespace FieldType

theorem plain_bare (t : FieldType) : t.bare.plain = t.plain := by
  induction t with
  | scalar | defined => rfl
  | array element span shown ih => simp [bare, plain, ih]
  | map key value span ihk ihv => simp [bare, plain, ihk, ihv]

namespace Derivation

variable {file : Nat} {text : String} {tokens : List Token} {d e : Derivation}

/-- A type is inside another if it goes from one of its tokens to another. -/
theorem inside (hd : Lined file d.tokens) (he : Lined file e.tokens) (hf : e.first ∈ d.uncommented.tokens)
    (hl : e.last ∈ d.uncommented.tokens) : e.type.span.Inside d.type.span := by
  have h := hd.sublist d.tokens_uncommented_suffix.sublist
  rw [d.span_type hd, e.span_type he]
  refine ⟨rfl, h.start_le_of_mem d.head?_uncommented hf, h.stop_le_of_mem ?_ hl⟩
  rw [← d.last_uncommented]
  exact d.uncommented.getLast?_tokens

theorem first_mem_uncommented (d : Derivation) : d.first ∈ d.uncommented.tokens :=
  List.mem_of_head? d.head?_uncommented

theorem last_mem_uncommented (d : Derivation) : d.last ∈ d.uncommented.tokens := by
  rw [← d.last_uncommented]
  exact d.uncommented.last_mem

/-- The types inside a type of one source nest. -/
theorem nested (d : Derivation) (h : Lined file d.tokens) : d.type.Nested := by
  induction d with
  | name word =>
    rw [type, ofName]
    split <;> exact trivial
  | map word opening key comma value closing ih =>
    have hopen := h.sublist (List.sublist_append_left _ closing.tokens)
    have hkey : Lined file (name key.toCommented).tokens :=
      hopen.sublist (((List.sublist_append_right _ _).trans (List.sublist_append_left _ _)).trans
        (List.sublist_append_left _ _))
    have hvalue : Lined file value.tokens := hopen.sublist (List.sublist_append_right _ _)
    have hfront : (name key.toCommented).type.span.InFrontOf value.type.span := by
      rw [span_type _ hkey, span_type _ hvalue]
      exact ⟨rfl, hopen.stop_le (by simp [last, key.token_mem]) value.first_mem⟩
    have hkeyInside := inside h hkey (by simp [uncommented, tokens, first, key.token_mem])
      (by simp [uncommented, tokens, last, key.token_mem])
    have hvalueInside := inside h hvalue (by simp [uncommented, tokens, value.first_mem])
      (by simp [uncommented, tokens, value.last_mem])
    rw [type_key] at hkeyInside hfront
    exact ⟨hkeyInside, hvalueInside, hfront, trivial, ih hvalue⟩
  | array word opening element closing ih =>
    have helement : Lined file element.tokens :=
      (h.sublist (List.sublist_append_left _ closing.tokens)).sublist (List.sublist_append_right _ _)
    exact ⟨inside h helement (by simp [uncommented, tokens, element.first_mem])
      (by simp [uncommented, tokens, element.last_mem]), ih helement⟩
  | suffix element brackets ih =>
    have helement : Lined file element.tokens := h.sublist (List.sublist_append_left _ _)
    exact ⟨inside h helement (List.mem_append_left _ element.first_mem_uncommented)
      (List.mem_append_left _ element.last_mem_uncommented), ih helement⟩

/-- A type in a text is read back. -/
theorem readsBack (h : Token.ofText text 0 = .ok tokens) (hd : d.tokens <:+: tokens) : d.type.ReadsBack text := by
  obtain ⟨_, slice, hcovers, hlexes⟩ := d.exists_covers h hd
  obtain ⟨u, hu, hbare⟩ := d.uncommented.exists_writtenAs hlexes
  rw [d.type_uncommented] at hbare
  refine ⟨slice, u, hcovers, hu, ?_, ?_⟩
  · rw [sameShape_iff_plain, ← plain_bare, hbare, plain_bare]
  · rw [← display_bare, hbare, display_bare]

end Derivation

end FieldType

/-! ## Definitions -/

/-- The type of a field is written in front of the name, unless it is a constant. -/
theorem Field.Body.exists_type {kind : DefinitionKind} (hk : kind ≠ .enum) (b : Body kind) :
    ∃ (e : FieldType.Derivation) (ts : List Token), (∀ owner, b.type owner = e.type) ∧
      b.tokens = ts ++ (e.tokens ++ b.name.tokens) := by
  cases b with
  | enum => exact absurd rfl hk
  | struct type name => exact ⟨type, [], fun _ => rfl, rfl⟩
  | message index hyphen greater type name =>
    exact ⟨type, index.tokens ++ hyphen.tokens ++ greater.tokens, fun _ => rfl, by simp [tokens, Body.name]⟩

/-- The type of a constant is not written. -/
theorem Field.Body.type_constant {kind : DefinitionKind} (hk : kind = .enum) (b : Body kind) (owner : Token) :
    b.type owner = .scalar .uint32 owner.span := by
  subst hk
  cases b
  rfl

namespace Definition.Derivation

section Lined

variable {file : Nat} {d : Derivation} {f : Field.Derivation d.kind}

/-- What goes from one token of a definition to another, from its name to its closing brace, is inside its span. -/
theorem inside (h : Lined file d.extent) {a b : Token} (ha : a ∈ d.extent) (hb : b ∈ d.extent) :
    Span.Inside ⟨file, a.span.start, b.span.stop⟩ d.definition.span := by
  rw [d.span_definition h]
  exact ⟨rfl, h.start_le_of_mem rfl ha, h.stop_le_of_mem d.getLast?_extent hb⟩

/-- The tokens of the fields stand one field behind the other. -/
theorem pairwise_fields (h : Lined file d.extent) : d.fields.Pairwise fun f g =>
    ∀ t ∈ f.tokens, ∀ u ∈ g.tokens, t.span.stop.offset ≤ u.span.start.offset :=
  Lined.pairwise (h.sublist (((List.sublist_append_right _ _).trans (List.sublist_append_left _ _)).cons _))

/-- The span of a field, between its first and its last token. -/
theorem span_field (h : Lined file d.extent) (hf : f ∈ d.fields) : (f.field d.name.token).span =
    ⟨file, f.body.name.token.span.start, f.closing.token.span.stop⟩ :=
  f.span_field d.name.token (h.sublist (field_infix_extent hf).sublist)

/-- The type of a field that is no constant is written in the field, in front of the name. -/
theorem exists_type (h : Lined file d.extent) (hk : d.kind ≠ .enum) (hf : f ∈ d.fields) :
    ∃ e : FieldType.Derivation, (f.field d.name.token).type = e.type ∧ e.tokens <:+: f.tokens ∧
      e.type.span = ⟨file, e.first.span.start, e.last.span.stop⟩ ∧
        e.last.span.stop.offset ≤ f.body.name.token.span.start.offset := by
  obtain ⟨e, ts, he, ht⟩ := f.body.exists_type hk
  have hbody : Lined file f.body.tokens := h.sublist (f.body_infix.trans (field_infix_extent hf)).sublist
  have hi : e.tokens <:+: f.body.tokens := ⟨ts, f.body.name.tokens, by rw [ht, List.append_assoc]⟩
  refine ⟨e, he _, hi.trans f.body_infix, e.span_type (hbody.sublist hi.sublist), ?_⟩
  rw [ht, ← List.append_assoc] at hbody
  exact hbody.stop_le (List.mem_append_right _ e.last_mem) f.body.name.token_mem

end Lined

variable {text : String} {tokens : List Token} {d : Derivation}

/-- The type of a field that is no constant is arranged as in the text. -/
theorem typeNested (h : Token.ofText text 0 = .ok tokens) (hd : d.extent <:+: tokens) (hk : d.kind ≠ .enum)
    {f : Field.Derivation d.kind} (hf : f ∈ d.fields) : (f.field d.name.token).TypeNested text d.definition := by
  have hl := (Token.lined_ofText h).sublist hd.sublist
  have hfield := field_infix_extent hf
  obtain ⟨e, he, hi, hspan, hle⟩ := exists_type hl hk hf
  constructor
  · rw [he, hspan]
    exact inside hl (hfield.subset (hi.subset e.first_mem)) (hfield.subset (hi.subset e.last_mem))
  · rw [he, hspan, span_field hl hf]
    exact ⟨rfl, hle⟩
  · rw [he]
    exact e.nested (hl.sublist (hi.trans hfield).sublist)
  · rw [he]
    intro t ht
    obtain ⟨c, rfl, hc⟩ := FieldType.Derivation.exists_of_mem_parts ht
    exact FieldType.Derivation.readsBack h (((hc.trans hi).trans hfield).trans hd)

/-- A field is arranged as in the text. -/
theorem fieldNested (h : Token.ofText text 0 = .ok tokens) (hd : d.extent <:+: tokens)
    {f : Field.Derivation d.kind} (hf : f ∈ d.fields) : (f.field d.name.token).Nested text d.definition := by
  have hl := (Token.lined_ofText h).sublist hd.sublist
  have hfield := field_infix_extent hf
  refine ⟨?_, ?_, fun hk => typeNested h hd hk hf, fun hk => ?_⟩
  · exact f.exists_covers h (hfield.trans hd) d.name.token
  · rw [span_field hl hf]
    exact inside hl (hfield.subset f.name_mem) (hfield.subset f.closing_mem)
  · refine ⟨d.name.token.span, f.body.type_constant hk d.name.token, by rw [d.span_definition hl], ?_⟩
    exact Token.covers_lexeme h (hd.subset d.name_mem_extent) (by rw [d.name.kind_eq]; rfl)

/-- A definition that is written in a text has its parts arranged as there. -/
theorem nested (h : Token.ofText text 0 = .ok tokens) (hd : d.extent <:+: tokens) : d.definition.Nested text := by
  have hl := (Token.lined_ofText h).sublist hd.sublist
  constructor
  · obtain ⟨hfile, slice, hcovers, -, hends⟩ := d.exists_covers h hd
    exact ⟨hfile, slice, hcovers, hends⟩
  · intro _ hmem
    obtain ⟨f, hf, rfl⟩ := List.mem_map.1 hmem
    exact fieldNested h hd hf
  · refine List.pairwise_map.2 ((pairwise_fields hl).imp_of_mem fun hf hg hfg => ?_)
    rw [span_field hl hf, span_field hl hg]
    exact ⟨rfl, hfg _ (Field.Derivation.closing_mem _) _ (Field.Derivation.name_mem _)⟩
  · intro hk
    refine List.pairwise_map.2 ((pairwise_fields hl).imp_of_mem fun hf hg hfg => ?_)
    obtain ⟨e, he, hi, hspan, -⟩ := exists_type hl hk hg
    rw [span_field hl hf, he, hspan]
    exact ⟨rfl, hfg _ (Field.Derivation.closing_mem _) _ (hi.subset e.first_mem)⟩

end Definition.Derivation

/-! ## Schemas -/

namespace Schema

variable {text ns : String} {s : Schema}

/-- The definitions of a text stand one behind the other, and each has its parts arranged as in the text. -/
theorem nested_ofText (hs : ofText text ns = .ok s) :
    (s.definitions.Pairwise fun d e => d.span.InFrontOf e.span) ∧ ∀ d ∈ s.definitions, d.Nested text := by
  obtain ⟨tokens, h⟩ := exists_tokens_of_ofText hs
  obtain ⟨D, hD, rfl⟩ := exists_derivation_of_ofText h hs
  have hextent {d : Definition.Derivation} (hd : d ∈ D.definitions) : d.extent <:+: tokens :=
    d.extent_suffix.isInfix.trans (hD ▸ Derivation.infix_of_mem hd)
  have hspan {d : Definition.Derivation} (hd : d ∈ D.definitions) := d.span_definition
    ((Token.lined_ofText h).sublist (hextent hd).sublist)
  constructor
  · have hl : Lined 0 (D.definitions.flatMap Definition.Derivation.tokens) := by
      refine (Token.lined_ofText h).sublist ?_
      rw [← hD]
      exact List.sublist_append_left _ _
    refine List.pairwise_map.2 (hl.pairwise.imp_of_mem fun {d e} hd he hde => ?_)
    rw [hspan hd, hspan he]
    exact ⟨rfl, hde _ (d.extent_suffix.subset d.closing_mem_extent) _ (e.extent_suffix.subset e.name_mem_extent)⟩
  · intro d hd
    obtain ⟨e, he, rfl⟩ := List.mem_map.1 hd
    exact e.nested h (hextent he)

/-- A struct with an array in a map and an array with comments inside, an enum, and a message with two fields. -/
theorem nested_ofText_mixed :
    let text := "struct A \x7b map[string, /* v */ B[]] x; array[ // e\n A] y; \x7d\n" ++
      "enum B \x7b X = 1; Y = 2; \x7d\nmessage C \x7b 1 -> A a; 2 -> C[][] c; \x7d"
    ∃ s, ofText text "N" = .ok s ∧ s.definitions.length = 3 ∧
      (s.definitions.Pairwise fun d e => d.span.InFrontOf e.span) ∧ ∀ d ∈ s.definitions, d.Nested text := by
  intro text
  have hlength : (ofText text "N").map (fun s => s.definitions.length) = .ok 3 := by decide +kernel
  cases hs : ofText text "N" with
  | error problem =>
    rw [hs] at hlength
    cases hlength
  | ok s =>
    rw [hs] at hlength
    exact ⟨s, rfl, Except.ok.inj hlength, nested_ofText hs⟩

/-- The type of a constant is `uint32`, at the name of the enum. By itself, this name is read as another type. -/
theorem not_readsBack_of_constant :
    let text := "enum A \x7b X = 1; \x7d struct B \x7b A x; \x7d"
    ∃ s, ofText text "N" = .ok s ∧ ∃ d ∈ s.definitions, ∃ f ∈ d.fields, ∃ t ∈ f.type.parts,
      t.span.Covers text.toList ['A'] ∧ ¬ t.ReadsBack text := by
  intro text
  let t : FieldType := .scalar .uint32 ⟨0, ⟨5, 1, 6⟩, ⟨6, 1, 7⟩⟩
  let constant : Field := ⟨"X", t, ⟨0, ⟨9, 1, 10⟩, ⟨15, 1, 16⟩⟩, none, 1, ""⟩
  let a : Definition := ⟨"A", .enum, false, ⟨0, ⟨5, 1, 6⟩, ⟨17, 1, 18⟩⟩, "", [], [constant]⟩
  let x : Field :=
    ⟨"x", .defined "A" ⟨0, ⟨29, 1, 30⟩, ⟨30, 1, 31⟩⟩, ⟨0, ⟨31, 1, 32⟩, ⟨33, 1, 34⟩⟩, none, 0, ""⟩
  let b : Definition := ⟨"B", .struct, false, ⟨0, ⟨25, 1, 26⟩, ⟨35, 1, 36⟩⟩, "", [], [x]⟩
  have hcovers : t.span.Covers text.toList ['A'] :=
    ⟨"enum ".toList, " \x7b X = 1; \x7d struct B \x7b A x; \x7d".toList, by decide +kernel⟩
  have hpart : t ∈ constant.type.parts := List.mem_singleton_self t
  refine ⟨⟨"N", [a, b]⟩, by decide +kernel, a, by simp, constant, by simp [a], t, hpart, hcovers, ?_⟩
  rintro ⟨slice, u, hslice, ⟨tokens, htokens, hread⟩, hshape, -⟩
  obtain rfl := hcovers.unique hslice
  let name : TokenOf .identifier := ⟨⟨.identifier, "A", ⟨0, ⟨0, 1, 1⟩, ⟨1, 1, 2⟩⟩⟩, rfl⟩
  have hname : Token.ofText (String.ofList ['A']) 0 = .ok [name.token] := by decide +kernel
  obtain rfl := Except.ok.inj (hname.symm.trans htokens)
  have hend : FieldType.NoSuffix [Token.endOfFile Span.zero] := ⟨_, [], rfl, by decide⟩
  have hdefined := FieldType.read_tokens (.name name.uncommented) hend
  have hu := hdefined.symm.trans (hread ⟨Token.endOfFile Span.zero, rfl⟩)
  obtain rfl := (Reading.done.inj hu).1
  have hshape' : (FieldType.defined "A" name.token.span).sameShape t = true := hshape
  cases hshape'

end Schema

end SchemaLang
