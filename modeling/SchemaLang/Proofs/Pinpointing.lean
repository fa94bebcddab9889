import SchemaLang.Proofs.Blindness
import SchemaLang.Proofs.Confinement
import SchemaLang.Proofs.Extents
import SchemaLang.Proofs.Streams

/-!
# Problems point at what is wrong

* `Diagnostic.Offending` says, for each cause of a problem, what is written where the problem is.
* `Diagnostic.Pinpoints` says that a problem has a place between two positions of a text, where the offending source is.
* Problems with tokens point at the tokens (`Diagnostic.Concerns.pinpoints`), those with attributes at a whole
  definition (`Schema.pinpoints_of_validated`), and those with the text at the place where no element starts
  (`Token.pinpoints_of_ofText`).
* Main result: `Schema.compileText_pinpoints`.
-/

namespace SchemaLang

open Element (Adjacent Lexes)

variable {text : String} {ns : String} {tokens : List Token} {problem : Diagnostic}

/-! ## Places and what is written there -/

/-- A stretch of text that, by itself, is read as a type. -/
def FieldType.WrittenAs (t : FieldType) (slice : List Char) : Prop :=
  ∃ tokens, Token.ofText (String.ofList slice) 0 = .ok tokens ∧
    ∀ e : TokenOf .endOfFile, read (tokens ++ [e.token]) = .done t [e.token]

/-- The first definition of a schema that has an attribute with an invalid payload. -/
def Schema.FirstInvalid (s : Schema) (d : Definition) : Prop :=
  ∃ before after, s.definitions = before ++ d :: after ∧ (∀ b ∈ before, ∀ a ∈ b.remarks, a.invalid? = none) ∧
    ∃ a ∈ d.remarks, a.invalid? ≠ none

namespace Diagnostic

/-- What is written at the place of a problem in a text, by the cause of the problem. -/
def Offending (text : String) (ns : String) (slice : List Char) : Diagnostic → Prop
  | lexical _ span => slice = [] ∧ ∃ es stuck, text.toList = es.flatMap Element.text ++ stuck ∧ stuck ≠ [] ∧
      span.start = .behind (es.flatMap Element.text) ∧ Adjacent es stuck ∧
        ∀ (e : Element) (rest : List Char), stuck = e.text ++ rest → e.Proper → ¬ e.Stops rest
  | unexpectedToken _ actual _ =>
    if actual.kind = .endOfFile then slice = [] ∧ actual.span.stop = .behind text.toList
    else ∃ t, Token.ofText (String.ofList slice) 0 = .ok [t] ∧ t.content = actual.content
  | unknownAttribute keyword _ => slice = keyword.toList
  | reservedIdentifier name _ => slice = name.toList
  | invalidMapKey key => ∃ t : FieldType, t.WrittenAs slice ∧ t.display = key.display
  | multipleDefinitions name _ => slice = name.toList
  | unrecognizedType name _ _ => slice = name.toList
  | invalidNumber lexeme _ => slice = lexeme.toList
  | invalidAttribute _ _ name _ => ∃ s d, Schema.ofText text ns = .ok s ∧ s.FirstInvalid d ∧ d.name = name ∧
      (∃ e : Definition.Derivation, e.definition = d ∧ Lexes slice (e.extent.map Token.content)) ∧
        name.toList <+: slice ∧ ['\x7d'] <:+ slice
  | unreadable _ | missingEndOfFile => False

/-- A problem at a place of a text, between two of its positions, where the offending source is. -/
def Pinpoints (text : String) (ns : String) (problem : Diagnostic) : Prop :=
  ∃ span slice, problem.span? = some span ∧ span.file = 0 ∧ span.Covers text.toList slice ∧
    problem.Offending text ns slice

end Diagnostic

/-! ## Problems with tokens -/

namespace FieldType.Derivation

open TokenReader

/-- Tokens that say the same as those of a derivation are read as the type, apart from its places. -/
theorem exists_of_map_content (d : Derivation) {ts : List Token}
    (h : ts.map Token.content = d.tokens.map Token.content) :
    ∃ t : FieldType, t.bare = d.type.bare ∧ ∀ e : TokenOf .endOfFile, read (ts ++ [e.token]) = .done t [e.token] := by
  have hread (e : TokenOf .endOfFile) : (read (ts ++ [e.token])).bare bare = .done d.type.bare [e.token.bare] := by
    have hend : NoSuffix [e.token] := ⟨e.token, [], rfl, by simp [e.kind_eq]⟩
    rw [← read_map_bare, List.map_append, Token.map_bare_congr h, ← List.map_append, read_map_bare, read_tokens d hend]
    rfl
  let e : TokenOf .endOfFile := ⟨Token.endOfFile Span.zero, rfl⟩
  have he := hread e
  cases confined_read (ts.length + 1) (List.suffix_refl ts) (Nat.lt_succ_self _) with
  | done t rest _ hg =>
    rw [hg e []] at he
    obtain ⟨ht, hrest⟩ := Reading.done.inj he
    obtain rfl : rest = [] := by
      have hl := congrArg List.length hrest
      rw [List.length_map, List.length_append, List.length_singleton, List.length_singleton] at hl
      exact List.eq_nil_of_length_eq_zero (by omega)
    exact ⟨t, ht, fun e => hg e []⟩
  | failed problem rest _ _ hf =>
    rw [hf e []] at he
    cases he
  | ended expected hint hf =>
    rw [hf e []] at he
    cases he

/-- A text with the tokens of a derivation is read as the type, apart from its places. -/
theorem exists_writtenAs (d : Derivation) {slice : List Char} (h : Lexes slice (d.tokens.map Token.content)) :
    ∃ t : FieldType, t.WrittenAs slice ∧ t.bare = d.type.bare := by
  have hl : Lexes (String.ofList slice).toList (d.tokens.map Token.content) := by rwa [String.toList_ofList]
  obtain ⟨ts, hts, hc⟩ := Token.exists_of_lexes hl 0
  obtain ⟨t, ht, hread⟩ := d.exists_of_map_content hc
  exact ⟨t, ⟨ts, hts, hread⟩, ht⟩

end FieldType.Derivation

/-- Reserved words and identifiers are written as they are. -/
theorem Field.isVerbatim_of_isReserved {t : Token} (h : isReserved t = true) : t.kind.isVerbatim = true := by
  rcases Bool.or_eq_true_iff.1 h with hk | hi
  · have hall : ∀ kind ∈ keywords.map Prod.snd, kind.isVerbatim = true := by decide
    exact hall t.kind (by simpa [TokenKind.isKeyword] using hk)
  · rw [of_decide_eq_true (Bool.and_eq_true_iff.1 hi).1]
    rfl

namespace Diagnostic

/-- A problem that is about one token of a text, and names it as it is written. -/
theorem pinpoints_of_lexeme (h : Token.ofText text 0 = .ok tokens) {t : Token} (ht : t ∈ tokens)
    (hv : t.kind.isVerbatim = true) (hs : problem.span? = some t.span)
    (ho : problem.Offending text ns t.lexeme.toList) : problem.Pinpoints text ns :=
  ⟨t.span, t.lexeme.toList, hs, (Token.lined_ofText h).file_eq t ht, Token.covers_lexeme h ht hv, ho⟩

/-- A text with one token is read as this token. -/
theorem exists_of_lexes_singleton {slice : List Char} {c : TokenKind × String} (h : Lexes slice [c]) :
    ∃ t, Token.ofText (String.ofList slice) 0 = .ok [t] ∧ t.content = c := by
  have hl : Lexes (String.ofList slice).toList [c] := by rwa [String.toList_ofList]
  obtain ⟨ts, hts, hc⟩ := Token.exists_of_lexes hl 0
  obtain ⟨t, us, rfl, ht, hus⟩ := List.map_eq_cons_iff.1 hc
  obtain rfl := List.map_eq_nil_iff.1 hus
  exact ⟨t, hts, ht⟩

/-- A problem with tokens of a text points at them. -/
theorem Concerns.pinpoints (h : Token.ofText text 0 = .ok tokens) (hp : problem.Concerns tokens) :
    problem.Pinpoints text ns := by
  have hl := Token.lined_ofText h
  cases hp with
  | @unexpectedToken t ht expected hint =>
    obtain ⟨slice, hcovers, hlexes, _⟩ := Token.exists_covers_token h ht
    obtain ⟨u, hu, hc⟩ := exists_of_lexes_singleton hlexes
    refine ⟨t.span, slice, rfl, hl.file_eq t ht, hcovers, ?_⟩
    rw [Offending, if_neg (Token.kind_ne_of_ofText h ht)]
    exact ⟨u, hu, hc⟩
  | unknownAttribute t ht => exact pinpoints_of_lexeme h ht (by rw [t.kind_eq]; rfl) rfl rfl
  | @reservedIdentifier t ht hr => exact pinpoints_of_lexeme h ht (Field.isVerbatim_of_isReserved hr) rfl rfl
  | invalidMapKey d hd =>
    obtain ⟨hfile, slice, hcovers, hlexes⟩ := FieldType.Derivation.exists_covers h hd
    obtain ⟨t, ht, hbare⟩ := d.uncommented.exists_writtenAs hlexes
    rw [d.type_uncommented] at hbare
    refine ⟨d.type.span, slice, rfl, hfile, hcovers, t, ht, ?_⟩
    rw [← FieldType.display_bare, hbare, FieldType.display_bare]
  | multipleDefinitions t ht => exact pinpoints_of_lexeme h ht (by rw [t.kind_eq]; rfl) rfl rfl
  | unrecognizedType t ht usedIn => exact pinpoints_of_lexeme h ht (by rw [t.kind_eq]; rfl) rfl rfl
  | invalidNumber t ht => exact pinpoints_of_lexeme h ht (by rw [t.kind_eq]; rfl) rfl rfl

end Diagnostic

/-! ## Problems with attributes -/

namespace Schema

variable {s : Schema}

/-- Validation fails at the first definition that has an attribute with an invalid payload. -/
theorem exists_of_validated (h : s.validated = .error problem) : ∃ d keyword reason, s.FirstInvalid d ∧
    problem = .invalidAttribute keyword reason d.name d.span := by
  rw [validated, map_eq_error_iff, Definition.validate] at h
  cases hf : s.definitions.findSome? Definition.invalidAttribute? with
  | none => simp [hf] at h
  | some p =>
    obtain rfl : p = problem := by simpa [hf] using h
    obtain ⟨before, d, after, hd, hp, hbefore⟩ := List.findSome?_eq_some_iff.1 hf
    obtain ⟨a, ha, hi⟩ := List.exists_of_findSome?_eq_some hp
    obtain ⟨reason, hr, rfl⟩ := Option.map_eq_some_iff.1 hi
    refine ⟨d, a.keyword, reason, ⟨before, after, hd, fun b hb c hc => ?_, a, ha, by simp [hr]⟩, rfl⟩
    have hnone := List.findSome?_eq_none_iff.1 (hbefore b hb) c hc
    simpa using hnone

/-- The schema of a text has a derivation from all of its tokens. -/
theorem exists_derivation_of_ofText (h : Token.ofText text 0 = .ok tokens) (hs : ofText text ns = .ok s) :
    ∃ d : Derivation, d.tokens = tokens ∧ s = d.schema ns := by
  rw [ofText_eq h] at hs
  obtain ⟨d, hd, rfl⟩ := exists_derivation hs
  rw [Token.beforeEnd_append (fun _ => Token.kind_ne_of_ofText h) rfl] at hd
  exact ⟨d, hd, rfl⟩

/-- Every definition of a text has a derivation from some of its tokens. -/
theorem exists_derivation_of_mem (h : Token.ofText text 0 = .ok tokens) (hs : ofText text ns = .ok s) {d : Definition}
    (hd : d ∈ s.definitions) : ∃ e : Definition.Derivation, e.definition = d ∧ e.tokens <:+: tokens := by
  obtain ⟨D, rfl, rfl⟩ := exists_derivation_of_ofText h hs
  obtain ⟨e, he, rfl⟩ := List.mem_map.1 hd
  exact ⟨e, rfl, Derivation.infix_of_mem he⟩

/-- A problem with an attribute points at the definition. -/
theorem pinpoints_of_validated (h : Token.ofText text 0 = .ok tokens) (hs : ofText text ns = .ok s)
    (hv : s.validated = .error problem) : problem.Pinpoints text ns := by
  obtain ⟨d, keyword, reason, hfirst, rfl⟩ := exists_of_validated hv
  have hmem : d ∈ s.definitions := by
    obtain ⟨before, after, hd, _⟩ := hfirst
    simp [hd]
  obtain ⟨e, rfl, he⟩ := exists_derivation_of_mem h hs hmem
  obtain ⟨hfile, slice, hcovers, hlexes, hname, hclosing⟩ :=
    Definition.Derivation.exists_covers h (e.extent_suffix.isInfix.trans he)
  exact ⟨e.definition.span, slice, rfl, hfile, hcovers, s, e.definition, hs, hfirst, rfl, ⟨e, rfl, hlexes⟩, hname,
    hclosing⟩

end Schema

/-! ## Problems with the text -/

/-- Where no element starts, the problem points at that place. -/
theorem Token.pinpoints_of_ofText (h : ofText text 0 = .error problem) : problem.Pinpoints text ns := by
  rw [ofText_eq] at h
  split at h
  · cases h
  · rename_i es stuck hne hsplit
    obtain rfl := Except.error.inj h
    obtain ⟨htext, ha, hnone⟩ := Element.split_eq_iff.1 hsplit
    have hplace : afterElements Position.start es = .behind (es.flatMap Element.text) := by
      rw [afterElements_eq_advance, Position.advance_start]
    refine ⟨_, [], rfl, rfl, ⟨es.flatMap Element.text, stuck, by simpa using htext, hplace, ?_⟩, rfl, es, stuck, htext,
      hne, hplace, ha, fun e rest he hp hs => ?_⟩
    · rw [List.append_nil]
      exact hplace
    · rw [he, Element.scan?_text_append hp hs] at hnone
      cases hnone

/-! ## All problems -/

/-- An end of file that is not expected is at the end of the text. -/
theorem Diagnostic.pinpoints_endOfFile (text ns : String) (expected : List TokenKind) (hint : Option String) :
    (unexpectedToken expected (Token.endOfFile (Span.point 0 (Position.finish text.toList))) hint).Pinpoints
      text ns := by
  have hfinish := Position.finish_eq_behind text.toList
  refine ⟨_, [], rfl, rfl, ⟨text.toList, [], by simp, hfinish, ?_⟩, ?_⟩
  · rw [List.append_nil]
    exact hfinish
  · simpa [Offending, Token.endOfFile, Span.point] using hfinish

namespace Schema

/-- A problem with the tokens of a text points at them or at the end of the text. -/
theorem pinpoints_of_ofTokens (h : Token.ofText text 0 = .ok tokens)
    (ho : ofTokens (tokens ++ [Token.endOfFile (Span.point 0 (Position.finish text.toList))]) ns = .error problem) :
    problem.Pinpoints text ns := by
  let e : TokenOf .endOfFile := ⟨Token.endOfFile (Span.point 0 (Position.finish text.toList)), rfl⟩
  obtain ⟨us, hu⟩ := Token.exists_terminated_append tokens e.token []
  rw [ofTokens, hu] at ho
  cases settled (fun _ => Token.kind_ne_of_ofText h) ns with
  | answer outcome hc rest _ hr =>
    rw [(hr e us).1] at ho
    exact (hc problem ho).pinpoints h
  | ended expected hint hr =>
    rw [(hr e us).1] at ho
    obtain rfl := Except.error.inj ho
    exact Diagnostic.pinpoints_endOfFile text ns expected hint

/-- Every problem with a text points at a place between two positions of the text where the offending source is. -/
theorem compileText_pinpoints (text ns : String) (h : compileText text ns = .error problem) :
    problem.Pinpoints text ns := by
  cases ht : Token.ofText text 0 with
  | error p =>
    rw [compileText, compileSources, Source.stream_text_error ht] at h
    obtain rfl := Except.error.inj h
    exact Token.pinpoints_of_ofText ht
  | ok tokens =>
    rw [compileText_eq ht, compile] at h
    have hs := ofText_eq ht ns
    cases ho : ofTokens (tokens ++ [Token.endOfFile (Span.point 0 (Position.finish text.toList))]) ns with
    | ok s =>
      rw [ho] at h hs
      exact pinpoints_of_validated ht hs h
    | error p =>
      rw [ho] at h
      obtain rfl : p = problem := Except.error.inj h
      exact pinpoints_of_ofTokens ht ho

/-- A key that is an array is refused at its name and brackets, behind a comment and characters of two bytes. -/
theorem compileText_pinpoints_key :
    let text := "// \u00e9\nstruct A \x7b\n  map[/* k */ B[], int32] x;\n\x7d"
    let problem := Diagnostic.invalidMapKey
      (.array (.defined "B" ⟨0, ⟨31, 3, 15⟩, ⟨32, 3, 16⟩⟩) ⟨0, ⟨31, 3, 15⟩, ⟨34, 3, 18⟩⟩ "B[]")
    compileText text "N" = .error problem ∧ problem.Pinpoints text "N" := by
  intro text problem
  have h : compileText text "N" = .error problem := by decide +kernel
  exact ⟨h, compileText_pinpoints text "N" h⟩

end Schema

end SchemaLang
