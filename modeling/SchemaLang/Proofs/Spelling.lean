import SchemaLang.Proofs.Boundaries
import SchemaLang.Proofs.Lexemes
import SchemaLang.Proofs.RoundTrip

/-!
# Spellings of types

An array may be written in two ways, so a type with several arrays inside has many spellings. All of them are read as
the same type, and the text of the type in messages is one of them.

* `FieldType.Spells` relates a type to the tokens of its spellings. `FieldType.canonical` is the text with all brackets
  behind the elements, and `FieldType.contents` are the tokens of this text.
* `FieldType.plain` is a type without places and with this text. Two types have the same shape exactly if these are the
  same (`FieldType.sameShape_iff_plain`).
* A spelling has a derivation of the type (`FieldType.Spells.exists_derivation`), so it is read as the type
  (`FieldType.Spells.read_eq`).
* Main result: `FieldType.spellings_agree`.
-/

namespace SchemaLang

open Token

namespace FieldType

/-! ## Shapes -/

/-- The text of a type with the brackets of all arrays behind the elements. -/
def canonical : FieldType → String
  | scalar base _ => base.name
  | array element _ _ => element.canonical ++ "[]"
  | map key value _ => "map[" ++ key.canonical ++ ", " ++ value.canonical ++ "]"
  | defined name _ => name

/-- A type without places, displayed as usual. -/
def plain : FieldType → FieldType
  | scalar base _ => scalar base Span.zero
  | array element _ _ => element.plain.arrayOf Span.zero
  | map key value _ => map key.plain value.plain Span.zero
  | defined name _ => defined name Span.zero

theorem sameShape_iff_plain {t u : FieldType} : t.sameShape u = true ↔ t.plain = u.plain := by
  induction t generalizing u with
  | scalar base span => cases u <;> simp [sameShape, plain, arrayOf]
  | array element span shown ih =>
    cases u with
    | array element' span' shown' =>
      rw [sameShape, ih]
      constructor
      · intro h
        rw [plain, plain, h]
      · intro h
        simp only [plain, arrayOf, array.injEq] at h
        exact h.1
    | scalar | map | defined => simp [sameShape, plain, arrayOf]
  | map key value span ihk ihv =>
    cases u with
    | map key' value' span' => simp [sameShape, plain, ihk, ihv]
    | scalar | array | defined => simp [sameShape, plain, arrayOf]
  | defined name span => cases u <;> simp [sameShape, plain, arrayOf]

theorem display_plain (t : FieldType) : t.plain.display = t.canonical := by
  induction t with
  | scalar | defined => rfl
  | array element span shown ih =>
    show element.plain.display ++ "[]" = _
    rw [ih]
    rfl
  | map key value span ihk ihv =>
    rw [plain, display, ihk, ihv]
    rfl

theorem contents_plain (t : FieldType) : t.plain.contents = t.contents := by
  induction t with
  | scalar | defined => rfl
  | array element span shown ih =>
    show element.plain.contents ++ _ = _
    rw [ih]
    rfl
  | map key value span ihk ihv =>
    rw [plain, contents, ihk, ihv]
    rfl

theorem definedNames_plain (t : FieldType) : t.plain.definedNames = t.definedNames := by
  induction t with
  | scalar | defined => rfl
  | array element span shown ih => exact ih
  | map key value span ihk ihv =>
    simp only [definedNames, plain, leaves, List.map_append] at ihk ihv ⊢
    rw [ihk, ihv]

/-- A type with the usual text at all depths is displayed as usual. -/
theorem display_eq_canonical {t : FieldType} (h : ∀ u ∈ t.parts, u.display = u.rendering) :
    t.display = t.canonical := by
  induction t with
  | scalar | defined => rfl
  | array element span shown ih =>
    have hshown : shown = element.display ++ "[]" := h _ List.mem_cons_self
    rw [display, hshown, ih fun u hu => h u (List.mem_cons_of_mem _ hu)]
    rfl
  | map key value span ihk ihv =>
    have hk := ihk fun u hu => h u (by simp [parts, hu])
    have hv := ihv fun u hu => h u (by simp [parts, hu])
    rw [display, hk, hv]
    rfl

theorem Derivation.display_type (d : Derivation) : d.type.display = d.type.canonical :=
  display_eq_canonical fun _ => d.display_eq_rendering

/-! ## Spellings -/

/-- A name of a definition as it may stand in a type. It is read as one identifier, and no built-in type has it. -/
structure IsTypeName (name : String) : Prop where
  lexes : Element.Lexes name.toList [(.identifier, name)]
  free : Scalar.ofName? name = none

/-- Identifiers that are neither reserved words nor built-in types may stand in types. -/
theorem isTypeName_of_isIdentifier {name : String} (h : IsIdentifier name)
    (hfree : ∀ base : Scalar, base.name ≠ name) : IsTypeName name where
  lexes := h.lexes
  free := by
    cases hs : Scalar.ofName? name with
    | none => rfl
    | some base => exact absurd (Scalar.ofName?_eq_some_iff.1 hs) (hfree base)

/-- The tokens of the spellings of a type. Each array is spelled either way, whatever the choices inside it. -/
inductive Spells : FieldType → List (TokenKind × String) → Prop
  | scalar (base : Scalar) (span : Span) : Spells (.scalar base span) [(.identifier, base.name)]
  | defined {name : String} (isTypeName : IsTypeName name) (span : Span) :
    Spells (.defined name span) [(.identifier, name)]
  | suffix {element : FieldType} {cs : List (TokenKind × String)} (spells : Spells element cs) (span : Span)
      (display : String) :
    Spells (.array element span display) (cs ++ [(.openBracket, "["), (.closeBracket, "]")])
  | word {element : FieldType} {cs : List (TokenKind × String)} (spells : Spells element cs) (span : Span)
      (display : String) :
    Spells (.array element span display)
      ((.array, "array") :: (.openBracket, "[") :: (cs ++ [(.closeBracket, "]")]))
  | map {value : FieldType} {cs : List (TokenKind × String)} (base : Scalar) (place : Span)
      (spells : Spells value cs) (span : Span) :
    Spells (.map (.scalar base place) value span)
      ((.map, "map") :: (.openBracket, "[") :: (.identifier, base.name) :: (.comma, ",") ::
        (cs ++ [(.closeBracket, "]")]))

/-- A type of built-in types, identifiers that name no built-in type, arrays, and maps with keys that are built in. -/
def Regular : FieldType → Prop
  | .scalar _ _ => True
  | .array element _ _ => element.Regular
  | .map key value _ => key.isScalar = true ∧ value.Regular
  | .defined name _ => IsIdentifier name ∧ ∀ base : Scalar, base.name ≠ name

/-- Every regular type has spellings, among them the usual one. -/
theorem Regular.spells {t : FieldType} (h : t.Regular) : Spells t t.contents := by
  induction t with
  | scalar base span => exact .scalar base span
  | array element span shown ih => exact .suffix (ih h) span shown
  | map key value span _ ihv =>
    obtain ⟨hkey, hvalue⟩ := h
    cases key with
    | scalar base place => exact .map base place (ihv hvalue) span
    | array | map | defined => cases hkey
  | defined name span => exact .defined (isTypeName_of_isIdentifier h.1 h.2) span

namespace Spells

variable {t : FieldType} {cs : List (TokenKind × String)} {ts : List Token}

/-- A spelling derives the type. -/
theorem exists_derivation (h : Spells t cs) (hts : ts.map content = cs) :
    ∃ d : Derivation, d.tokens = ts ∧ d.type.plain = t.plain := by
  induction h generalizing ts with
  | scalar base span =>
    obtain ⟨word, rfl, hw⟩ := exists_of_map_singleton hts
    refine ⟨.name word.uncommented, rfl, ?_⟩
    simp [Derivation.type, TokenOf.uncommented, ofName, hw, Scalar.ofName?_name, plain]
  | defined hname span =>
    obtain ⟨word, rfl, hw⟩ := exists_of_map_singleton hts
    refine ⟨.name word.uncommented, rfl, ?_⟩
    simp [Derivation.type, TokenOf.uncommented, ofName, hw, hname.free, plain]
  | suffix _ span shown ih =>
    obtain ⟨us, vs, rfl, hus, hvs⟩ := exists_of_map_append hts
    obtain ⟨d, rfl, hd⟩ := ih hus
    obtain ⟨opening, vs, rfl, _, hvs⟩ := exists_of_map_cons hvs
    obtain ⟨closing, rfl, _⟩ := exists_of_map_singleton hvs
    refine ⟨.suffix d ⟨opening, closing.uncommented⟩, rfl, ?_⟩
    rw [plain, ← hd]
    rfl
  | word _ span shown ih =>
    obtain ⟨word, us, rfl, _, hus⟩ := exists_of_map_cons hts
    obtain ⟨opening, us, rfl, _, hus⟩ := exists_of_map_cons hus
    obtain ⟨us, vs, rfl, hus, hvs⟩ := exists_of_map_append hus
    obtain ⟨d, rfl, hd⟩ := ih hus
    obtain ⟨closing, rfl, _⟩ := exists_of_map_singleton hvs
    refine ⟨.array word.uncommented opening.uncommented d closing.uncommented, by simp [Derivation.tokens], ?_⟩
    rw [plain, ← hd]
    rfl
  | map base place _ span ih =>
    obtain ⟨word, us₁, rfl, _, h₁⟩ := exists_of_map_cons hts
    obtain ⟨opening, us₂, rfl, _, h₂⟩ := exists_of_map_cons h₁
    obtain ⟨k, us₃, rfl, hk, h₃⟩ := exists_of_map_cons h₂
    obtain ⟨comma, us₄, rfl, _, h₄⟩ := exists_of_map_cons h₃
    obtain ⟨vs, us₅, rfl, hvs, h₅⟩ := exists_of_map_append h₄
    obtain ⟨d, rfl, hd⟩ := ih hvs
    obtain ⟨closing, rfl, _⟩ := exists_of_map_singleton h₅
    refine ⟨.map word.uncommented opening.uncommented ⟨k.uncommented, base, hk.symm⟩ comma.uncommented d
      closing.uncommented, by simp [Derivation.tokens], ?_⟩
    rw [plain, ← hd]
    rfl

/-- A spelling in front of a token that opens no bracket is read up to that token, as a type of the same shape that is
displayed as usual. -/
theorem read_eq (h : Spells t cs) (hts : ts.map content = cs) {next : Token} (hnext : next.kind ≠ .openBracket)
    (rest : List Token) : ∃ u, read (ts ++ next :: rest) = .done u (next :: rest) ∧ u.sameShape t = true ∧
      u.display = t.canonical := by
  obtain ⟨d, rfl, hd⟩ := h.exists_derivation hts
  refine ⟨d.type, read_tokens d ⟨next, rest, rfl, hnext⟩, sameShape_iff_plain.2 hd, ?_⟩
  rw [d.display_type, ← display_plain, hd, display_plain]

/-- The usual tokens of a type that has spellings are one of them. -/
theorem contents (h : Spells t cs) : Spells t t.contents := by
  induction h with
  | scalar base span => exact .scalar base span
  | defined hname span => exact .defined hname span
  | suffix _ span shown ih => exact .suffix ih span shown
  | word _ span shown ih => exact .suffix ih span shown
  | map base place _ span ih => exact .map base place ih span

theorem isTypeName (h : Spells t cs) : ∀ name ∈ t.definedNames, IsTypeName name := by
  induction h with
  | scalar => simp [definedNames, leaves]
  | defined hname => simpa [definedNames, leaves] using hname
  | suffix _ _ _ ih => exact ih
  | word _ _ _ ih => exact ih
  | map base place _ span ih => simpa [definedNames, leaves] using ih

/-- The usual text of a type that has spellings is cut into its usual tokens. -/
theorem lexes_canonical (h : Spells t cs) : Element.Lexes t.canonical.toList t.contents := by
  -- a type that is read from a spelling is displayed as usual at all depths
  have hts : (cs.map fun c => (⟨c.1, c.2, Span.zero⟩ : Token)).map content = cs := by
    rw [List.map_map]
    exact List.map_id cs
  obtain ⟨d, _, hd⟩ := h.exists_derivation hts
  have hn : ∀ name ∈ d.type.definedNames, Element.Lexes name.toList [(.identifier, name)] := by
    rw [← definedNames_plain, hd, definedNames_plain]
    exact fun name hname => (h.isTypeName name hname).lexes
  have hl := lexes_display d.type (fun _ => d.display_eq_rendering) hn .nil Element.ends_nil
  rwa [d.display_type, ← display_plain, ← contents_plain, hd, display_plain, contents_plain, List.append_nil,
    List.append_nil] at hl

/-- The usual text is one of the spellings. -/
theorem exists_of_canonical (h : Spells t cs) (file : Nat) :
    ∃ ds, ofText t.canonical file = .ok ds ∧ Spells t (ds.map content) := by
  obtain ⟨ds, hds, hcontent⟩ := exists_of_lexes h.lexes_canonical file
  exact ⟨ds, hds, hcontent ▸ h.contents⟩

/-- Types with the same usual text have the same shape. -/
theorem plain_eq_of_canonical {u : FieldType} {ds : List (TokenKind × String)} (ht : Spells t cs) (hu : Spells u ds)
    (h : t.canonical = u.canonical) : t.plain = u.plain := by
  -- the usual tokens are the same, and they are read as one type
  obtain ⟨ts, hts, htcontent⟩ := exists_of_lexes ht.lexes_canonical 0
  obtain ⟨us, hus, hucontent⟩ := exists_of_lexes hu.lexes_canonical 0
  rw [h, hus] at hts
  obtain rfl := Except.ok.inj hts
  have hnext : (Token.endOfFile Span.zero).kind ≠ .openBracket := by decide
  obtain ⟨a, hreada, hshapea, _⟩ := ht.contents.read_eq htcontent hnext []
  obtain ⟨b, hreadb, hshapeb, _⟩ := hu.contents.read_eq hucontent hnext []
  rw [hreada] at hreadb
  simp only [Reading.done.injEq, and_true] at hreadb
  subst hreadb
  exact (sameShape_iff_plain.1 hshapea).symm.trans (sameShape_iff_plain.1 hshapeb)

end Spells

/-- A derived type has spellings, if the names in it are read as identifiers. -/
theorem Derivation.spells (d : Derivation)
    (h : ∀ t ∈ d.typeNames, Element.Lexes t.lexeme.toList [(.identifier, t.lexeme)]) :
    Spells d.type d.type.contents := by
  induction d with
  | name word =>
    simp only [type, ofName]
    cases hs : Scalar.ofName? word.token.lexeme with
    | some base => exact .scalar base _
    | none => exact .defined ⟨h _ (by simp [typeNames, hs]), hs⟩ _
  | map word opening key comma value closing ih => exact .map key.base _ (ih h) _
  | array word opening element closing ih => exact .suffix (ih h) _ _
  | suffix element brackets ih => exact .suffix (ih h) _ _

end FieldType

/-! ## Types of schemas -/

/-- A verbatim token of a text is read again from its lexeme. -/
theorem Token.lexes_lexeme {text : String} {file : Nat} {tokens : List Token} {t : Token}
    (h : ofText text file = .ok tokens) (ht : t ∈ tokens) (hv : t.kind.isVerbatim = true) :
    Element.Lexes t.lexeme.toList [t.content] := by
  obtain ⟨slice, _, hlexes, hslice⟩ := exists_covers_token h ht
  rwa [← hslice hv]

/-- The types in a schema, at all depths of the types of its fields. -/
def Schema.types (s : Schema) : List FieldType :=
  s.definitions.flatMap fun d => d.fields.flatMap fun f => f.type.parts

/-- The types in the schema of a text have spellings and are displayed as usual. -/
theorem Schema.spells_of_mem_types {text ns : String} {s : Schema} {t : FieldType} (hs : ofText text ns = .ok s)
    (ht : t ∈ s.types) : t.Spells t.contents ∧ t.display = t.canonical := by
  obtain ⟨tokens, h⟩ := exists_tokens_of_ofText hs
  obtain ⟨_, hd, ht⟩ := List.mem_flatMap.1 ht
  obtain ⟨d, rfl, htokens⟩ := exists_derivation_of_mem h hs hd
  obtain ⟨_, hf, ht⟩ := List.mem_flatMap.1 ht
  obtain ⟨f, hmem, rfl⟩ := List.mem_map.1 hf
  rcases Field.Body.exists_of_mem_parts ht with rfl | ⟨e, rfl, he⟩
  · exact ⟨.scalar .uint32 _, rfl⟩
  · refine ⟨e.spells fun t ht => ?_, e.display_type⟩
    have hk := e.kind_of_mem_typeNames ht
    have htext : t ∈ tokens := by
      have hbody := he.subset (e.typeNames_sublist.subset ht)
      refine (d.extent_suffix.isInfix.trans htokens).subset ((Definition.Derivation.field_infix_extent hmem).subset ?_)
      simp [Field.Derivation.tokens, Field.Derivation.core, hbody]
    have hlexes := Token.lexes_lexeme h htext (by rw [hk]; rfl)
    rwa [Token.content, hk] at hlexes

namespace FieldType

/-- Every spelling of a type is read up to where it ends, as a type of the same shape that is displayed as usual. What
is displayed is one of the spellings, so it is read as such a type again. All regular types have spellings, and so have
all types in schemas. There two types have the same shape exactly if they are displayed in the same way. -/
theorem spellings_agree :
    (∀ t cs, Spells t cs → ∀ ts next rest, ts.map content = cs → next.kind ≠ .openBracket →
      ∃ u, read (ts ++ next :: rest) = .done u (next :: rest) ∧ u.sameShape t = true ∧ u.display = t.canonical ∧
        ∀ file, ∃ ds, Token.ofText u.display file = .ok ds ∧ Spells t (ds.map content) ∧
          ∀ next' rest', next'.kind ≠ .openBracket → ∃ v, read (ds ++ next' :: rest') = .done v (next' :: rest') ∧
            v.sameShape u = true ∧ v.display = u.display) ∧
    (∀ t, Regular t → Spells t t.contents) ∧
    ∀ text text' ns ns' s s', Schema.ofText text ns = .ok s → Schema.ofText text' ns' = .ok s' →
      ∀ t ∈ s.types, ∀ u ∈ s'.types, Spells t t.contents ∧ (t.sameShape u = true ↔ t.display = u.display) := by
  refine ⟨fun t cs h ts next rest hts hnext => ?_, fun t h => h.spells, fun text text' ns ns' s s' hs hs' t ht u hu => ?_⟩
  · obtain ⟨u, hread, hshape, hdisplay⟩ := h.read_eq hts hnext rest
    refine ⟨u, hread, hshape, hdisplay, fun file => ?_⟩
    obtain ⟨ds, hds, hspells⟩ := h.exists_of_canonical file
    rw [hdisplay]
    refine ⟨ds, hds, hspells, fun next' rest' hnext' => ?_⟩
    obtain ⟨v, hread', hshape', hdisplay'⟩ := hspells.read_eq rfl hnext' rest'
    refine ⟨v, hread', ?_, hdisplay'⟩
    rw [sameShape_iff_plain] at hshape hshape' ⊢
    rw [hshape', hshape]
  · obtain ⟨hspells, hdisplay⟩ := Schema.spells_of_mem_types hs ht
    obtain ⟨hspells', hdisplay'⟩ := Schema.spells_of_mem_types hs' hu
    refine ⟨hspells, ?_⟩
    rw [sameShape_iff_plain, hdisplay, hdisplay']
    constructor
    · intro h
      rw [← display_plain, h, display_plain]
    · intro h
      exact hspells.plain_eq_of_canonical hspells' h

/-- A map of arrays of arrays of which the outer ones are written with a word, and both spellings in a schema. -/
theorem spellings_agree_mixed :
    let t := map (.scalar .string Span.zero) (((defined "B" Span.zero).arrayOf Span.zero).arrayOf Span.zero) Span.zero
    let spelling := [(TokenKind.map, "map"), (.openBracket, "["), (.identifier, "string"), (.comma, ","),
      (.array, "array"), (.openBracket, "["), (.identifier, "B"), (.openBracket, "["), (.closeBracket, "]"),
      (.closeBracket, "]"), (.closeBracket, "]")]
    let ts := spelling.map fun c => (⟨c.1, c.2, Span.zero⟩ : Token)
    let next : Token := ⟨.identifier, "m", Span.zero⟩
    Spells t t.contents ∧
      (∃ u, read (ts ++ [next]) = .done u [next] ∧ u.sameShape t = true ∧ u.display = "map[string, B[][]]") ∧
      ∃ s, Schema.ofText "struct B \x7b array[B] x; B[] y; \x7d" "N" = .ok s ∧
        ∀ t ∈ s.types, ∀ u ∈ s.types, t.sameShape u = true ↔ t.display = u.display := by
  intro t spelling ts next
  obtain ⟨hread, hregular, hschema⟩ := spellings_agree
  have hB : IsIdentifier "B" ∧ ∀ base : Scalar, base.name ≠ "B" := ⟨by decide, fun base => by cases base <;> decide⟩
  have hspells : Spells t spelling :=
    .map .string _ (.word (.suffix (.defined (isTypeName_of_isIdentifier hB.1 hB.2) _) _ _) _ _) _
  obtain ⟨u, hu, hshape, hdisplay, _⟩ := hread t spelling hspells ts next [] rfl (by decide)
  obtain ⟨s, hs⟩ : ∃ s, Schema.ofText "struct B \x7b array[B] x; B[] y; \x7d" "N" = .ok s :=
    exists_of_isOk (by decide +kernel)
  refine ⟨hregular t ⟨rfl, hB⟩, ⟨u, hu, hshape, ?_⟩, s, hs, fun t ht u hu => ?_⟩
  · rw [hdisplay]
    decide
  · exact (hschema _ _ _ _ s s hs hs t ht u hu).2

end FieldType

end SchemaLang
