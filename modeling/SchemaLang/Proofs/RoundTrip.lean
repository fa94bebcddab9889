import SchemaLang.Proofs.Places
import SchemaLang.Proofs.Printing
import SchemaLang.Proofs.Streams

/-!
# Reading undoes printing

A printed schema is read as itself, apart from the places.

* For each construct there is a derivation from all tokens that have the printed contents, and it derives the printed
  value (`FieldType.exists_derivation`, `Attribute.exists_derivation`, ...). A payload is read as it was before
  (`Text.signed32?_signedDecimal`, `Attribute.permissionsOf_join`).
* Main result: `Evaluator.exists_evaluate_of_layout`.
-/

namespace SchemaLang

/-! ## Tokens with given contents -/

namespace Token

variable {ts : List Token} {cs ds : List (TokenKind × String)}

theorem exists_of_map_cons {kind : TokenKind} {lexeme : String} (h : ts.map content = (kind, lexeme) :: cs) :
    ∃ (t : TokenOf kind) (us : List Token), ts = t.token :: us ∧ t.token.lexeme = lexeme ∧ us.map content = cs := by
  obtain ⟨t, us, rfl, ht, hus⟩ := List.map_eq_cons_iff.1 h
  obtain ⟨hk, hl⟩ := Prod.mk.inj ht
  exact ⟨⟨t, hk⟩, us, rfl, hl, hus⟩

theorem exists_of_map_singleton {kind : TokenKind} {lexeme : String} (h : ts.map content = [(kind, lexeme)]) :
    ∃ t : TokenOf kind, ts = [t.token] ∧ t.token.lexeme = lexeme := by
  obtain ⟨t, us, rfl, hl, hus⟩ := exists_of_map_cons h
  obtain rfl := List.map_eq_nil_iff.1 hus
  exact ⟨t, rfl, hl⟩

theorem exists_of_map_append (h : ts.map content = cs ++ ds) :
    ∃ us vs, ts = us ++ vs ∧ us.map content = cs ∧ vs.map content = ds := by
  obtain ⟨us, vs, hts, hus, hvs⟩ := List.map_eq_append_iff.1 h
  exact ⟨us, vs, hts, hus, hvs⟩

theorem partwise_content : Partwise fun ts cs => ts.map content = cs := ⟨List.map_eq_nil_iff.1, exists_of_map_append⟩

end Token

open Token

/-! ## Types -/

namespace FieldType

/-- A type of the kind that is derived. -/
structure Derivable (t : FieldType) : Prop where
  key_isScalar : ∀ key value span, .map key value span ∈ t.parts → key.isScalar = true
  display_eq : ∀ u ∈ t.parts, u.display = u.rendering
  defined_ne : ∀ name ∈ t.definedNames, ∀ base : Scalar, base.name ≠ name

theorem Derivable.element {element : FieldType} {span : Span} {shown : String}
    (h : (array element span shown).Derivable) : element.Derivable where
  key_isScalar key value span hm := h.key_isScalar key value span (List.mem_cons_of_mem _ hm)
  display_eq u hu := h.display_eq u (List.mem_cons_of_mem _ hu)
  defined_ne := h.defined_ne

theorem Derivable.value {key value : FieldType} {span : Span} (h : (map key value span).Derivable) :
    value.Derivable where
  key_isScalar k v s hm := h.key_isScalar k v s (List.mem_cons_of_mem _ (List.mem_append_right _ hm))
  display_eq u hu := h.display_eq u (List.mem_cons_of_mem _ (List.mem_append_right _ hu))
  defined_ne name hn := h.defined_ne name (by simp_all [definedNames, leaves])

/-- Tokens with the contents of a type derive it. -/
theorem exists_derivation {t : FieldType} (h : t.Derivable) {ts : List Token} (hts : ts.map content = t.contents) :
    ∃ d : Derivation, d.tokens = ts ∧ d.type.bare = t.bare := by
  induction t generalizing ts with
  | scalar base span =>
    obtain ⟨word, rfl, hw⟩ := exists_of_map_singleton hts
    refine ⟨.name word.uncommented, rfl, ?_⟩
    simp [Derivation.type, TokenOf.uncommented, ofName, hw, Scalar.ofName?_name, bare]
  | array element span shown ih =>
    obtain ⟨us, vs, rfl, hus, hvs⟩ := exists_of_map_append hts
    obtain ⟨d, rfl, hd⟩ := ih h.element hus
    obtain ⟨opening, vs, rfl, _, hvs⟩ := exists_of_map_cons hvs
    obtain ⟨closing, rfl, _⟩ := exists_of_map_singleton hvs
    have hshown : shown = element.display ++ "[]" := h.display_eq _ List.mem_cons_self
    have hdisplay : d.type.display = element.display := by rw [← display_bare, hd, display_bare]
    refine ⟨.suffix d ⟨opening, closing.uncommented⟩, rfl, ?_⟩
    simp [Derivation.type, arrayOf, bare, hd, hshown, hdisplay]
  | map key value span ihk ihv =>
    have hkey := h.key_isScalar key value span List.mem_cons_self
    cases key with
    | array | map | defined => cases hkey
    | scalar base place =>
      obtain ⟨word, us₁, rfl, _, h₁⟩ := exists_of_map_cons hts
      obtain ⟨opening, us₂, rfl, _, h₂⟩ := exists_of_map_cons h₁
      obtain ⟨k, us₃, rfl, hk, h₃⟩ := exists_of_map_cons h₂
      obtain ⟨comma, us₄, rfl, _, h₄⟩ := exists_of_map_cons h₃
      obtain ⟨vs, us₅, rfl, hvs, h₅⟩ := exists_of_map_append h₄
      obtain ⟨d, rfl, hd⟩ := ihv h.value hvs
      obtain ⟨closing, rfl, _⟩ := exists_of_map_singleton h₅
      refine ⟨.map word.uncommented opening.uncommented ⟨k.uncommented, base, hk.symm⟩ comma.uncommented d
        closing.uncommented, by simp [Derivation.tokens], ?_⟩
      simp [Derivation.type, Key.type, bare, hd]
  | defined name span =>
    obtain ⟨word, rfl, hw⟩ := exists_of_map_singleton hts
    have hn : Scalar.ofName? name = none := by
      cases ho : Scalar.ofName? name with
      | none => rfl
      | some base =>
        exact absurd (Scalar.ofName?_eq_some_iff.1 ho) (h.defined_ne name (by simp [definedNames, leaves]) base)
    refine ⟨.name word.uncommented, rfl, ?_⟩
    simp [Derivation.type, TokenOf.uncommented, ofName, hw, hn, bare]

/-- No comment is printed inside a type. -/
theorem kind_ne_of_mem_contents {t : FieldType} {c : TokenKind × String} (h : c ∈ t.contents) :
    c.1 ≠ .blockComment := by
  induction t with
  | scalar | defined =>
    obtain rfl := List.mem_singleton.1 h
    simp
  | array element span shown ih =>
    simp only [contents, List.mem_append, List.mem_cons, List.not_mem_nil, or_false] at h
    rcases h with h | rfl | rfl
    · exact ih h
    all_goals simp
  | map key value span ihk ihv =>
    simp only [contents, List.mem_append, List.mem_cons, List.not_mem_nil, or_false] at h
    rcases h with rfl | rfl | h | rfl | h | rfl
    · simp
    · simp
    · exact ihk h
    · simp
    · exact ihv h
    · simp

end FieldType

/-! ## Payloads -/

namespace Text

/-- A printed number in range is read as itself. -/
theorem signed32?_signedDecimal {n : Int} (h₀ : 0 ≤ n) (h₁ : n < 2147483648) :
    signed32? (signedDecimal n) = some n := by
  obtain ⟨m, rfl⟩ := Int.eq_ofNat_of_zero_le h₀
  have hnatural : natural? (decimal m) = some m := by
    rw [natural?, if_pos ⟨Nat.toDigits_ne_nil, List.all_eq_true.2 fun c hc => isDigit_of_mem_decimal hc⟩]
    exact congrArg some (digitsValue_decimal m)
  have hinteger : integer? (decimal m) = some (Int.ofNat m) := by
    rw [integer?, hnatural]
    · rfl
    · intro ds hd
      have hc : '+' ∈ decimal m := hd ▸ List.mem_cons_self
      exact absurd (isDigit_of_mem_decimal hc) (by decide)
    · intro ds hd
      have hc : '-' ∈ decimal m := hd ▸ List.mem_cons_self
      exact absurd (isDigit_of_mem_decimal hc) (by decide)
  rw [signed32?, show signedDecimal (m : Int) = decimal m from rfl, hinteger, Option.filter_some, if_pos]
  · rfl
  · simp
    omega

theorem pieces_append {sep : Char} {p : List Char} (h : sep ∉ p) (s : List Char) :
    pieces sep (p ++ sep :: s) = p :: pieces sep s := by
  induction p with
  | nil => simp [pieces]
  | cons c p ih =>
    obtain ⟨hc, hp⟩ := not_or.1 (List.mem_cons.not.1 h)
    rw [List.cons_append, pieces, if_neg (Ne.symm hc), ih hp]

/-- Texts without the separator are the pieces of what they are joined to. -/
theorem pieces_join {sep : Char} : ∀ {ps : List (List Char)}, (∀ p ∈ ps, sep ∉ p) → ps ≠ [] →
    pieces sep (join [sep] ps) = ps
  | [], _, hne => absurd rfl hne
  | [p], h, _ => pieces_of_not_mem (h p List.mem_cons_self)
  | p :: q :: ps, h, _ => by
    have hq := pieces_join (fun r hr => h r (List.mem_cons_of_mem p hr)) (List.cons_ne_nil q ps)
    rw [join, List.append_assoc, List.singleton_append, pieces_append (h p List.mem_cons_self), hq]

end Text

namespace Attribute

/-- Printed permissions are read as themselves. -/
theorem permissionsOf_join {permissions : List String} (h : (authorize permissions).Printable) :
    permissionsOf (String.ofList (Text.join [','] (permissions.map String.toList))) = permissions := by
  rw [permissionsOf, String.toList_ofList]
  by_cases hne : permissions.map String.toList = []
  · obtain rfl := List.map_eq_nil_iff.1 hne
    decide
  · have hcomma : ∀ p ∈ permissions.map String.toList, ',' ∉ p := by
      intro p hp
      obtain ⟨q, hq, rfl⟩ := List.mem_map.1 hp
      exact (h q hq).2.2
    have htrim : (permissions.map String.toList).map Text.trim = permissions.map String.toList := by
      rw [List.map_map]
      exact List.map_congr_left fun q hq => (h q hq).2.1
    have hfilter : (permissions.map String.toList).filter (· ≠ []) = permissions.map String.toList := by
      rw [List.filter_eq_self]
      intro p hp
      obtain ⟨q, hq, rfl⟩ := List.mem_map.1 hp
      simpa using (h q hq).1
    rw [Text.pieces_join hcomma hne, htrim, hfilter, List.map_map]
    simp [Function.comp_def]

/-- A printed payload is one token, by which the attribute is known. -/
theorem exists_argument {a : Attribute} (h : a.Printable) {p : Piece} (hp : a.argument = some p) :
    ∃ kind lexeme, p.contents = [(kind, lexeme)] ∧
      (kind = .escapedString ∨ kind = .rawString ∨ kind = .number ∧ a.keyword = "opcode") ∧
      ofKeyword? a.keyword lexeme (kind = .number) = some a := by
  cases a with
  | opcode value isNumber =>
    cases isNumber <;> cases hp
    · exact ⟨_, _, rfl, .inl rfl, rfl⟩
    · exact ⟨_, _, rfl, .inr (.inr ⟨rfl, rfl⟩), rfl⟩
  | command => cases hp
  | deprecated | query => cases hp; exact ⟨_, _, rfl, .inl rfl, rfl⟩
  | authorize permissions =>
    cases hp
    refine ⟨_, _, rfl, .inl rfl, ?_⟩
    simp [ofKeyword?, keyword, permissionsOf_join h]

/-- Tokens with the contents of a printed attribute derive it. -/
theorem exists_derivation {a : Attribute} (h : a.Printable) {ts : List Token}
    (hts : ts.map content = a.pieces.flatMap Piece.contents) : ∃ d : Derivation, d.tokens = ts ∧ d.value = a := by
  have hkeyword := a.isIdentifier_keyword.wordKind_eq
  cases hp : a.argument with
  | none =>
    simp only [pieces, hp, Option.elim_none, List.append_nil, List.cons_append, List.nil_append, List.flatMap_cons,
      List.flatMap_nil, Piece.contents, hkeyword] at hts
    obtain ⟨opening, us₁, rfl, _, h₁⟩ := exists_of_map_cons hts
    obtain ⟨name, us₂, rfl, hn, h₂⟩ := exists_of_map_cons h₁
    obtain ⟨closing, rfl, _⟩ := exists_of_map_singleton h₂
    have hknown : ofKeyword? name.token.lexeme "" false = some a := by
      cases a with
      | command => rw [hn]; rfl
      | opcode value isNumber => cases isNumber <;> cases hp
      | deprecated | query | authorize => cases hp
    exact ⟨⟨opening, name.uncommented, none, closing.uncommented, a, hknown⟩, rfl, rfl⟩
  | some p =>
    obtain ⟨kind, lexeme, hc, hk, hknown⟩ := exists_argument h hp
    simp only [pieces, hp, Option.elim_some, List.cons_append, List.nil_append, List.flatMap_cons, List.flatMap_nil,
      hc] at hts
    simp only [Piece.contents, hkeyword, List.cons_append, List.nil_append] at hts
    obtain ⟨opening, us₁, rfl, _, h₁⟩ := exists_of_map_cons hts
    obtain ⟨name, us₂, rfl, hn, h₂⟩ := exists_of_map_cons h₁
    obtain ⟨left, us₃, rfl, _, h₃⟩ := exists_of_map_cons h₂
    obtain ⟨literal, us₄, rfl, hl, h₄⟩ := exists_of_map_cons h₃
    obtain ⟨right, us₅, rfl, _, h₅⟩ := exists_of_map_cons h₄
    obtain ⟨closing, rfl, _⟩ := exists_of_map_singleton h₅
    rw [← hn] at hk hknown
    rw [← hl] at hknown
    rw [← literal.kind_eq] at hk
    let argument : Argument name.token.lexeme := ⟨left, literal.token, hk, right.uncommented⟩
    refine ⟨⟨opening, name.uncommented, some argument, closing.uncommented, a, ?_⟩, rfl, rfl⟩
    simpa [Argument.value, argument, TokenOf.uncommented, literal.kind_eq] using hknown

end Attribute

/-- Tokens with the contents of a printed documentation are comments with this documentation. -/
theorem Comments.exists_of_documentation {all : Bool} {d : String} {ts : List Token}
    (hts : ts.map content = (Piece.documentation all d).flatMap Piece.contents) :
    ∃ cs : Comments, cs.tokens = ts ∧ cs.documentation = d := by
  rw [Piece.documentation] at hts
  split at hts
  · rename_i hd
    obtain rfl := List.map_eq_nil_iff.1 hts
    exact ⟨none, rfl, hd.1.symm⟩
  · obtain ⟨comment, rfl, hc⟩ := exists_of_map_singleton hts
    exact ⟨⟨[comment.token], by simp [Token.isComment, comment.kind_eq]⟩, rfl, hc⟩

/-! ## Fields -/

namespace Field

variable {names : List String} {kind : DefinitionKind} {f : Field} {ts : List Token}

theorem Printable.derivable (h : f.Printable names kind) : f.type.Derivable :=
  ⟨h.key_isScalar, h.display_eq, h.defined_ne⟩

/-- The token of a printed number. -/
theorem exists_numeral (h : f.Printable names kind) {t : TokenOf .number}
    (ht : t.token.lexeme = String.ofList (Text.signedDecimal f.value)) :
    ∃ n : Numeral, n.tokens = [t.token] ∧ n.value = f.value :=
  ⟨⟨t.uncommented, f.value, by
    simp [TokenOf.uncommented, ht, Text.signed32?_signedDecimal h.value_nonneg h.value_lt]⟩, rfl, rfl⟩

/-- Tokens with the contents of a printed body derive one. -/
theorem exists_body (h : f.Printable names kind) (hts : ts.map content = (f.bodyPieces kind).flatMap Piece.contents)
    (owner : Token) : ∃ b : Body kind, b.tokens = ts ∧ b.name.token.lexeme = f.name ∧
      (b.type owner).bare = f.type.bare ∧ b.value = f.value := by
  have hword := h.isIdentifier_name.wordKind_eq
  have hfree {t : TokenOf .identifier} (ht : t.token.lexeme = f.name) : isKeyword t.token.lexeme = false := by
    rw [ht, h.isIdentifier_name.2]
  cases kind with
  | enum =>
    simp only [bodyPieces, number, List.flatMap_cons, List.flatMap_nil, Piece.contents, hword, List.cons_append,
      List.nil_append] at hts
    obtain ⟨name, us₁, rfl, hn, h₁⟩ := exists_of_map_cons hts
    obtain ⟨equals, us₂, rfl, _, h₂⟩ := exists_of_map_cons h₁
    obtain ⟨constant, rfl, hc⟩ := exists_of_map_singleton h₂
    obtain ⟨n, hnt, hnv⟩ := exists_numeral h hc
    obtain ⟨span, ht⟩ := h.enum_type rfl
    refine ⟨.enum ⟨name.uncommented, hfree hn⟩ equals.uncommented n, ?_, hn, ?_, hnv⟩
    · simp [Body.tokens, hnt]
    · rw [ht]
      rfl
  | struct =>
    simp only [bodyPieces, List.flatMap_cons, List.flatMap_nil, Piece.contents, hword, List.append_nil] at hts
    obtain ⟨us₁, us₂, rfl, h₁, h₂⟩ := exists_of_map_append hts
    obtain ⟨d, rfl, hd⟩ := FieldType.exists_derivation h.derivable h₁
    obtain ⟨name, rfl, hn⟩ := exists_of_map_singleton h₂
    exact ⟨.struct d ⟨name.uncommented, hfree hn⟩, rfl, hn, hd, (h.struct_value rfl).symm⟩
  | message =>
    simp only [bodyPieces, number, List.flatMap_cons, List.flatMap_nil, Piece.contents, hword, List.cons_append,
      List.nil_append, List.append_nil] at hts
    obtain ⟨index, us₁, rfl, hi, h₁⟩ := exists_of_map_cons hts
    obtain ⟨hyphen, us₂, rfl, _, h₂⟩ := exists_of_map_cons h₁
    obtain ⟨greater, us₃, rfl, _, h₃⟩ := exists_of_map_cons h₂
    obtain ⟨us₄, us₅, rfl, h₄, h₅⟩ := exists_of_map_append h₃
    obtain ⟨d, rfl, hd⟩ := FieldType.exists_derivation h.derivable h₄
    obtain ⟨name, rfl, hn⟩ := exists_of_map_singleton h₅
    obtain ⟨n, hnt, hnv⟩ := exists_numeral h hi
    refine ⟨.message n hyphen.uncommented greater.uncommented d ⟨name.uncommented, hfree hn⟩, ?_, hn, hd, hnv⟩
    simp [Body.tokens, hnt]

/-- No comment is printed inside a body. -/
theorem isComment_of_body (h : f.Printable names kind)
    (hts : ts.map content = (f.bodyPieces kind).flatMap Piece.contents) : ∀ t ∈ ts, t.isComment = false := by
  have hword := h.isIdentifier_name.wordKind_eq
  have hc : ∀ c ∈ (f.bodyPieces kind).flatMap Piece.contents, c.1 ≠ .blockComment := by
    intro c hm
    cases kind with
    | enum =>
      simp only [bodyPieces, number, Piece.contents, hword, List.flatMap_cons, List.flatMap_nil, List.mem_append,
        List.mem_singleton, List.not_mem_nil, or_false] at hm
      rcases hm with rfl | rfl | rfl <;> simp
    | struct =>
      simp only [bodyPieces, Piece.contents, hword, List.flatMap_cons, List.flatMap_nil, List.mem_append,
        List.mem_singleton, List.not_mem_nil, or_false] at hm
      rcases hm with hm | rfl
      · exact FieldType.kind_ne_of_mem_contents hm
      · simp
    | message =>
      simp only [bodyPieces, number, Piece.contents, hword, List.flatMap_cons, List.flatMap_nil, List.mem_append,
        List.mem_singleton, List.not_mem_nil, or_false] at hm
      rcases hm with rfl | rfl | rfl | hm | rfl
      · simp
      · simp
      · simp
      · exact FieldType.kind_ne_of_mem_contents hm
      · simp
  intro t ht
  have hk := hc t.content (hts ▸ List.mem_map_of_mem ht)
  simpa [isComment, content] using hk

/-- Tokens with the contents of a printed deprecation derive it, and those of none derive nothing. -/
theorem exists_remark (h : f.Printable names kind)
    (hts : ts.map content = (f.deprecated.elim [] Attribute.pieces).flatMap Piece.contents) :
    ∃ r : Option Attribute.Derivation, r.elim [] Attribute.Derivation.tokens = ts ∧
      (r.map Attribute.Derivation.value).filter Attribute.isDeprecated = f.deprecated := by
  cases hd : f.deprecated with
  | none =>
    rw [hd] at hts
    exact ⟨none, (List.map_eq_nil_iff.1 hts).symm, rfl⟩
  | some a =>
    obtain ⟨reason, rfl⟩ := h.deprecated_eq a hd
    rw [hd] at hts
    obtain ⟨r, hr, hv⟩ := Attribute.exists_derivation (a := .deprecated reason) trivial hts
    exact ⟨some r, hr, by rw [Option.map_some, hv]; rfl⟩

/-- Tokens with the contents of a printed field derive it. -/
theorem exists_derivation (h : f.Printable names kind) {all : Bool}
    (hts : ts.map content = (f.pieces all kind).flatMap Piece.contents) (owner : Token) :
    ∃ d : Derivation kind, d.tokens = ts ∧ (d.field owner).bare = f.bare := by
  simp only [pieces, List.flatMap_append] at hts
  obtain ⟨us, vs, rfl, hus, hclosing⟩ := exists_of_map_append hts
  obtain ⟨us, body, rfl, hus, hbody⟩ := exists_of_map_append hus
  obtain ⟨comments, remark, rfl, hcomments, hremark⟩ := exists_of_map_append hus
  obtain ⟨cs, rfl, hcs⟩ := Comments.exists_of_documentation hcomments
  have hmaximal := isComment_of_body h hbody
  obtain ⟨b, rfl, hname, htype, hvalue⟩ := exists_body h hbody owner
  obtain ⟨closing, rfl, _⟩ := exists_of_map_singleton hclosing
  obtain ⟨r, rfl, hr⟩ := exists_remark h hremark
  refine ⟨⟨cs, r, b, closing.uncommented, fun _ t ht => hmaximal t (List.mem_of_mem_head? ht)⟩, ?_, ?_⟩
  · simp [Derivation.tokens, Derivation.core]
  · simp only [Derivation.field, bare, hname, htype, hvalue, hr, hcs]

end Field

/-! ## Definitions -/

namespace Definition

variable {names : List String} {d : Definition} {ts : List Token}

/-- A printed definition uses defined names only. -/
theorem Printable.name_mem_of_mem_references (h : d.Printable names) {r : Reference} (hr : r ∈ d.references) :
    r.name ∈ names := by
  obtain ⟨f, hf, hr⟩ := List.mem_flatMap.1 hr
  obtain ⟨leaf, hleaf, rfl⟩ := List.mem_map.1 hr
  exact (h.fields f hf).defined_mem leaf.1 (List.mem_map_of_mem hleaf)

/-- Tokens with the contents of a printed modifier are one. -/
theorem exists_modifier {isReadOnly : Bool}
    (hts : ts.map content = (if isReadOnly then [Piece.word "readonly"] else []).flatMap Piece.contents) :
    ∃ m : Option (TokenOf .readonly), m.elim [] (fun t => [t.token]) = ts ∧ m.isSome = isReadOnly := by
  cases isReadOnly with
  | false => exact ⟨none, (List.map_eq_nil_iff.1 hts).symm, rfl⟩
  | true =>
    have hw : ts.map content = [(.readonly, "readonly")] := hts
    obtain ⟨readonly, rfl, _⟩ := exists_of_map_singleton hw
    exact ⟨some readonly, rfl, rfl⟩

/-- Tokens with the contents of a printed definition derive it. -/
theorem exists_derivation (h : d.Printable names) {all : Bool}
    (hts : ts.map content = (d.pieces all).flatMap Piece.contents) :
    ∃ e : Derivation, e.tokens = ts ∧ e.definition.bare = d.bare := by
  have hword := h.isIdentifier_name.wordKind_eq
  have hkind : Element.wordKind d.kind.keyword.toList = d.kind.word := by cases d.kind <;> decide
  -- the parts of the print, from the last to the first
  simp only [pieces, List.flatMap_append] at hts
  obtain ⟨us, vs, rfl, hus, hclosing⟩ := exists_of_map_append hts
  obtain ⟨us, fields, rfl, hus, hfields⟩ := exists_of_map_append hus
  obtain ⟨us, head, rfl, hus, hhead⟩ := exists_of_map_append hus
  obtain ⟨us, modifier, rfl, hus, hmodifier⟩ := exists_of_map_append hus
  obtain ⟨comments, remarks, rfl, hcomments, hremarks⟩ := exists_of_map_append hus
  obtain ⟨cs, rfl, hcs⟩ := Comments.exists_of_documentation hcomments
  obtain ⟨m, rfl, hm⟩ := exists_modifier hmodifier
  -- the tokens of each part; the name token places the types of the fields
  simp only [List.flatMap_assoc] at hremarks hfields
  obtain ⟨rs, rfl, hrs⟩ := partwise_content.exists_of_flatMap Attribute.Derivation.value id
    (fun a ha _ hu => Attribute.exists_derivation (h.attributes a ha) hu) hremarks
  simp only [Piece.contents, hword, hkind, List.flatMap_cons, List.flatMap_nil, List.cons_append,
    List.nil_append] at hhead
  obtain ⟨word, us₁, rfl, _, h₁⟩ := exists_of_map_cons hhead
  obtain ⟨name, us₂, rfl, hname, h₂⟩ := exists_of_map_cons h₁
  obtain ⟨opening, rfl, _⟩ := exists_of_map_singleton h₂
  obtain ⟨fs, rfl, hfs⟩ := partwise_content.exists_of_flatMap
    (fun e : Field.Derivation d.kind => (e.field name.token).bare) Field.bare
    (fun f hf _ hu => Field.exists_derivation (h.fields f hf) hu name.token) hfields
  obtain ⟨closing, rfl, _⟩ := exists_of_map_singleton hclosing
  refine ⟨⟨cs, rs, m, d.kind, word, name.uncommented, opening.uncommented, fs, closing.uncommented⟩, ?_, ?_⟩
  · simp [Derivation.tokens, Derivation.core, Derivation.modifierTokens]
  · simp [Derivation.definition, bare, TokenOf.uncommented, hname, hm, hcs, hrs, hfs, Function.comp_def]

end Definition

/-! ## Schemas -/

namespace Schema

/-- Tokens with the contents of a printed schema derive it. -/
theorem exists_derivation_of_pieces {s : Schema} (h : s.Printable) {all : Bool} {ts : List Token}
    (hts : ts.map content = (s.pieces all).flatMap Piece.contents) :
    ∃ d : Derivation, d.tokens = ts ∧ (d.schema s.ns).bare = s.bare := by
  rw [pieces, List.flatMap_assoc] at hts
  obtain ⟨ds, rfl, hds⟩ := partwise_content.exists_of_flatMap
    (fun d : Definition.Derivation => d.definition.bare) Definition.bare
    (fun d hd _ hu => Definition.exists_derivation (h.definitions d hd) hu) hts
  have hnames : Definition.Derivation.names ds = s.definitions.map Definition.name := by
    have hn := congrArg (List.map Definition.name) hds
    rwa [List.map_map, List.map_map] at hn
  refine ⟨⟨ds, Comments.none, hnames ▸ h.names_nodup, ?_⟩, List.append_nil _, ?_⟩
  · intro e he t ht
    obtain ⟨d, hd, hb⟩ := List.mem_map.1 (hds ▸ List.mem_map_of_mem he)
    have hr : t.lexeme ∈ d.references.map Reference.name := by
      rw [← Definition.map_name_references_bare, hb, Definition.map_name_references_bare,
        Definition.Derivation.references_definition, List.map_map]
      exact List.mem_map_of_mem ht
    obtain ⟨r, hr, hl⟩ := List.mem_map.1 hr
    rw [hnames, ← hl]
    exact (h.definitions d hd).name_mem_of_mem_references hr
  · rw [bare, Derivation.schema, List.map_map]
    exact congrArg (Schema.mk s.ns) hds

end Schema

/-- However a printable schema is laid out as text, the text is read as the schema, apart from the places. -/
theorem Evaluator.exists_evaluate_of_layout {s : Schema} {all : Bool} {text : String} (h : s.Printable)
    (hl : Layout (s.pieces all) text.toList) (disk : Disk) :
    ∃ t, ((new (.sources [.text text]) s.ns).evaluate disk).1 = .ok t ∧ t.bare = s.bare := by
  obtain ⟨ts, hts, hc⟩ := exists_of_lexes (hl.lexes (h.legible all)) 0
  obtain ⟨d, rfl, hd⟩ := Schema.exists_derivation_of_pieces h hc
  refine ⟨d.schema s.ns, ?_, hd⟩
  let e := endOfFile (Span.point 0 (Position.finish text.toList))
  have hend : beforeEnd (d.tokens ++ [e]) = d.tokens := beforeEnd_append (fun t => d.kind_ne_of_mem) rfl
  rw [evaluate_fst, new, Input.stream, Source.stream_text hts]
  exact Schema.ofTokens_of_derivation d s.ns hend.symm

/-- A schema with nested types and escaped payloads is read from its usual layout. -/
theorem Evaluator.exists_evaluate_specimen : ∃ t, ((new (.sources [.text
    (String.ofList (Piece.spaced (Schema.specimen.pieces true)))]) "N").evaluate Disk.empty).1 = .ok t ∧
    t.bare = Schema.specimen.bare := by
  have hl : Layout (Schema.specimen.pieces true)
      (String.ofList (Piece.spaced (Schema.specimen.pieces true))).toList := by
    rw [String.toList_ofList]
    exact Layout.spaced _
  exact exists_evaluate_of_layout Schema.printable_specimen hl Disk.empty

end SchemaLang
