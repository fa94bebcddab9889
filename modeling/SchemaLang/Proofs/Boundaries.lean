import SchemaLang.Proofs.Extents
import SchemaLang.Proofs.Streams
import SchemaLang.Proofs.WellFormed

/-!
# Spans at the boundaries of sources

* `Definition.spans` are all spans of a definition: its own, those of its fields, and those of the types in them at all
  depths. `Span.Within` says that a span goes from one place to a later one of the source that it names.
* Main result: `Schema.spans_within`. The spans of a definition are within the source in which it begins, if it ends in
  the same source.
* A definition that ends in another source has a span that mixes both, as `Span.combine` compares offsets only
  (`Schema.not_within_of_two_sources`).
-/

namespace SchemaLang

/-- The spans of a definition, of its fields, and of the types in them at all depths. -/
def Definition.spans (d : Definition) : List Span :=
  d.span :: d.fields.flatMap fun f => f.span :: f.type.parts.map FieldType.span

/-- A span from one place to a later one of the source that it names. -/
def Span.Within (disk : Disk) (sources : List Source) (span : Span) : Prop :=
  ∃ source text slice, sources[span.file]? = some source ∧ source.content disk = .ok text ∧
    span.Covers text.toList slice

variable {text : String} {file : Nat} {tokens : List Token}

/-! ## Definitions of one source -/

/-- The types inside a derived type are derived from some of its tokens. -/
theorem FieldType.Derivation.exists_of_mem_parts {d : Derivation} {p : FieldType} (h : p ∈ d.type.parts) :
    ∃ e : Derivation, e.type = p ∧ e.tokens <:+: d.tokens := by
  induction d with
  | name word =>
    have hp : (name word).type.parts = [(name word).type] := by
      rw [type, ofName]
      split <;> rfl
    rw [hp, List.mem_singleton] at h
    exact ⟨name word, h.symm, List.infix_rfl⟩
  | map word opening key comma value closing ih =>
    rcases List.mem_cons.1 h with rfl | h
    · exact ⟨map word opening key comma value closing, rfl, List.infix_rfl⟩
    · rcases List.mem_append.1 h with h | h
      · refine ⟨name key.toCommented, ?_, word.tokens ++ opening.tokens, _, by simp [tokens]; rfl⟩
        obtain rfl : p = key.type := by simpa [Key.type, parts] using h
        exact type_key key
      · obtain ⟨e, he, hi⟩ := ih h
        exact ⟨e, he, hi.trans ⟨word.tokens ++ opening.tokens ++ key.tokens ++ comma.tokens, closing.tokens, rfl⟩⟩
  | array word opening element closing ih =>
    rcases List.mem_cons.1 h with rfl | h
    · exact ⟨array word opening element closing, rfl, List.infix_rfl⟩
    · obtain ⟨e, he, hi⟩ := ih h
      exact ⟨e, he, hi.trans ⟨word.tokens ++ opening.tokens, closing.tokens, rfl⟩⟩
  | suffix element brackets ih =>
    rcases List.mem_cons.1 h with rfl | h
    · exact ⟨suffix element brackets, rfl, List.infix_rfl⟩
    · obtain ⟨e, he, hi⟩ := ih h
      exact ⟨e, he, hi.trans (List.prefix_append _ _).isInfix⟩

/-- The types in a field are derived from some of its tokens. The type of a constant is where the enum is named. -/
theorem Field.Body.exists_of_mem_parts {kind : DefinitionKind} {b : Body kind} {owner : Token} {t : FieldType}
    (h : t ∈ (b.type owner).parts) :
    t = .scalar .uint32 owner.span ∨ ∃ e : FieldType.Derivation, e.type = t ∧ e.tokens <:+: b.tokens := by
  cases b with
  | enum name equals constant => exact .inl (List.mem_singleton.1 h)
  | struct type name =>
    obtain ⟨e, he, hi⟩ := FieldType.Derivation.exists_of_mem_parts h
    exact .inr ⟨e, he, hi.trans (List.prefix_append _ _).isInfix⟩
  | message index hyphen greater type name =>
    obtain ⟨e, he, hi⟩ := FieldType.Derivation.exists_of_mem_parts h
    exact .inr ⟨e, he, hi.trans ⟨index.tokens ++ hyphen.tokens ++ greater.tokens, name.tokens, rfl⟩⟩

/-- All spans of a definition that is written in one text cover some of the text. -/
theorem Definition.Derivation.exists_covers_of_mem_spans {d : Derivation} (h : Token.ofText text file = .ok tokens)
    (hd : d.extent <:+: tokens) {span : Span} (hs : span ∈ d.definition.spans) :
    span.file = file ∧ ∃ slice, span.Covers text.toList slice := by
  rcases List.mem_cons.1 hs with rfl | hs
  · obtain ⟨hfile, slice, hcovers, _⟩ := d.exists_covers h hd
    exact ⟨hfile, slice, hcovers⟩
  · obtain ⟨_, hf, hs⟩ := List.mem_flatMap.1 hs
    obtain ⟨f, hmem, rfl⟩ := List.mem_map.1 hf
    have hfield := (field_infix_extent hmem).trans hd
    rcases List.mem_cons.1 hs with rfl | hs
    · obtain ⟨hfile, slice, hcovers, _⟩ := f.exists_covers h hfield d.name.token
      exact ⟨hfile, slice, hcovers⟩
    · obtain ⟨t, ht, rfl⟩ := List.mem_map.1 hs
      rcases Field.Body.exists_of_mem_parts ht with rfl | ⟨e, rfl, he⟩
      · have hname : d.name.token ∈ tokens := hd.subset List.mem_cons_self
        obtain ⟨slice, hcovers, _⟩ := Token.exists_covers_token h hname
        exact ⟨(Token.lined_ofText h).file_eq _ hname, slice, hcovers⟩
      · obtain ⟨hfile, slice, hcovers, _⟩ := e.exists_covers h ((he.trans f.body_infix).trans hfield)
        exact ⟨hfile, slice, hcovers⟩

/-! ## Definitions of several sources -/

variable {disk : Disk} {sources : List Source}

/-- All tokens between the name of a definition and its closing brace are of one source, if these two are. -/
theorem Definition.Derivation.file_of_mem_extent {d : Derivation} {ts : List Token}
    (hs : Source.Segments disk 0 sources ts) (hd : d.extent <:+: ts)
    (hends : d.name.token.span.file = d.closing.token.span.file) :
    ∀ t ∈ d.extent, t.span.file = d.name.token.span.file := by
  have hfiles := hs.pairwise_file.sublist hd.sublist
  have hfirst := (List.pairwise_cons.1 hfiles).1
  obtain ⟨ts', hlast⟩ := List.getLast?_eq_some_iff.1 d.getLast?_extent
  rw [hlast] at hfiles
  intro t ht
  have hle : d.name.token.span.file ≤ t.span.file := by
    rcases List.mem_cons.1 ht with rfl | ht
    · exact Nat.le_refl _
    · exact hfirst t ht
  have hge : t.span.file ≤ d.closing.token.span.file := by
    rw [hlast] at ht
    rcases List.mem_append.1 ht with ht | ht
    · exact (List.pairwise_append.1 hfiles).2.2 t ht _ List.mem_cons_self
    · rw [List.mem_singleton.1 ht]
  omega

theorem Definition.Derivation.within_of_mem_spans {d : Derivation} {ts : List Token}
    (hs : Source.Segments disk 0 sources ts) (hd : d.extent <:+: ts)
    (hends : d.name.token.span.file = d.closing.token.span.file) {span : Span} (hspan : span ∈ d.definition.spans) :
    span.Within disk sources := by
  have hne : d.extent ≠ [] := List.cons_ne_nil _ _
  obtain ⟨source, text, tokens, hsource, hc, ht, hi⟩ := hs.exists_of_infix hd hne (d.file_of_mem_extent hs hd hends)
  obtain ⟨hfile, slice, hcovers⟩ := d.exists_covers_of_mem_spans ht hi hspan
  exact ⟨source, text, slice, by rwa [hfile], hc, hcovers⟩

/-- Sources that are read as a schema have the tokens of its definitions. The spans of every definition that ends in the
source in which it begins are within this source. -/
theorem Schema.spans_within {ns : String} {s : Schema} (h : ofSources disk sources ns = .ok s) :
    ∃ (ds : List Definition.Derivation) (trailing : Comments) (e : TokenOf .endOfFile),
      s.definitions = ds.map Definition.Derivation.definition ∧
        Source.stream disk sources =
          .ok (ds.flatMap Definition.Derivation.tokens ++ trailing.tokens ++ [e.token]) ∧
          ∀ d ∈ ds, d.name.token.span.file = d.closing.token.span.file →
            ∀ span ∈ d.definition.spans, span.Within disk sources := by
  cases hts : Source.stream disk sources with
  | error problem =>
    rw [ofSources, hts] at h
    cases h
  | ok ts =>
    rw [ofSources, hts] at h
    obtain ⟨us, e, rfl, hus⟩ := Source.exists_segments hts
    obtain ⟨D, hD, rfl⟩ := exists_derivation h
    rw [Token.beforeEnd_append hus.kind_ne e.kind_eq] at hD
    refine ⟨D.definitions, D.trailing, e, rfl, by rw [← hD]; rfl, fun d hd hends span hspan => ?_⟩
    have hi : d.tokens <:+: us := hD ▸ Derivation.infix_of_mem hd
    exact d.within_of_mem_spans hus (d.extent_suffix.isInfix.trans hi) hends hspan

/-- A message with a field of a nested type, behind another source, has all its spans in its own source. -/
theorem Schema.spans_within_second_source :
    let disk : Disk := fun _ => .error .notFound
    let sources : List Source := [.text "enum E \x7b \x7d", .text "message M \x7b 1 -> map[int32, E[]] m; \x7d"]
    ∃ s, ofSources disk sources "N" = .ok s ∧
      ∃ (ds : List Definition.Derivation) (trailing : Comments) (e : TokenOf .endOfFile),
        s.definitions = ds.map Definition.Derivation.definition ∧
          Source.stream disk sources =
            .ok (ds.flatMap Definition.Derivation.tokens ++ trailing.tokens ++ [e.token]) ∧
            ∀ d ∈ ds, d.name.token.span.file = d.closing.token.span.file →
              ∀ span ∈ d.definition.spans, span.Within disk sources := by
  intro disk sources
  obtain ⟨s, h⟩ : ∃ s, ofSources disk sources "N" = .ok s := exists_of_isOk (by decide +kernel)
  exact ⟨s, h, spans_within h⟩

/-- A definition that ends in the next source gets its end from there, which is no place of the source that it names. -/
theorem Schema.not_within_of_two_sources :
    let disk : Disk := fun path => if path = "a" then .ok "struct A \x7b" else .ok "               \x7d"
    let sources : List Source := [.file "a", .file "b"]
    ∃ s, ofSources disk sources "N" = .ok s ∧ ∃ d ∈ s.definitions, ¬ d.span.Within disk sources := by
  intro disk sources
  let d : Definition := ⟨"A", .struct, false, ⟨0, ⟨7, 1, 8⟩, ⟨16, 1, 17⟩⟩, "", [], []⟩
  refine ⟨⟨"N", [d]⟩, by decide +kernel, d, List.mem_cons_self, ?_⟩
  rintro ⟨source, text, slice, hsource, hc, hcovers⟩
  obtain rfl : Source.file "a" = source := Option.some.inj hsource
  obtain rfl : "struct A \x7b" = text := Except.ok.inj hc
  exact absurd hcovers.stop_le (by decide +kernel)

end SchemaLang
