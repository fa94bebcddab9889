import SchemaLang.Proofs.Boundaries
import SchemaLang.Proofs.Commands
import SchemaLang.Proofs.Opcodes
import SchemaLang.Proofs.Pinpointing

/-!
# Reports name an input

Every place that is reported is in one of the sources.

* A token of a stream stands in the source whose number it has (`Token.StandsIn`), or it is the end of file, which is at
  the end of the last source (`Token.EndsLast`).
* The spans of a schema have the numbers of tokens, as combining spans keeps the number of the first one
  (`Definition.Derivation.exists_of_mem_spans`).
* `Diagnostic.spans` are all spans in a problem, and `Diagnostic.named?` is the token that it names, if it names one.
  `Diagnostic.Placed` says that all spans are in the sources, and that a token which a problem is about is written at
  its place.
* So a report of a located problem starts with the path of an input (`CommandLine.exists_report`).
* Main result: `CommandLine.reports_name_inputs`.
-/

namespace SchemaLang

open Element (Lexes)

/-! ## Tokens of streams -/

namespace Token

/-- A token that is written, at its place, in the source whose number it has. -/
def StandsIn (disk : Disk) (sources : List Source) (t : Token) : Prop :=
  ∃ source text tokens slice, sources[t.span.file]? = some source ∧ source.content disk = .ok text ∧
    ofText text t.span.file = .ok tokens ∧ t ∈ tokens ∧ t.span.Covers text.toList slice ∧ Lexes slice [t.content]

/-- An end of file at the end of the last source. -/
def EndsLast (disk : Disk) (sources : List Source) (t : Token) : Prop :=
  ∃ source text, sources.getLast? = some source ∧ source.content disk = .ok text ∧
    t = endOfFile (Span.point (sources.length - 1) (Position.finish text.toList))

variable {disk : Disk} {sources : List Source} {t : Token}

theorem StandsIn.file_lt (h : t.StandsIn disk sources) : t.span.file < sources.length := by
  obtain ⟨source, _, _, _, hsource, _⟩ := h
  exact (List.getElem?_eq_some_iff.1 hsource).1

theorem EndsLast.file_lt (h : t.EndsLast disk sources) : t.span.file < sources.length := by
  obtain ⟨source, text, hlast, _, rfl⟩ := h
  have hlength := List.length_pos_of_mem (List.mem_of_getLast? hlast)
  exact Nat.sub_lt hlength Nat.one_pos

end Token

namespace Source

variable {disk : Disk} {sources : List Source} {file : Nat} {finish : Span} {ts us : List Token} {t : Token}

/-- The end of file of a stream is at the end of the last source. -/
theorem exists_stream_end (hne : sources ≠ []) (h : streamFrom disk file finish sources = .ok ts) :
    ∃ us source text, Segments disk file sources us ∧ sources.getLast? = some source ∧
      source.content disk = .ok text ∧
        ts = us ++ [Token.endOfFile (Span.point (file + sources.length - 1) (Position.finish text.toList))] := by
  induction sources generalizing file finish ts with
  | nil => exact absurd rfl hne
  | cons source sources ih =>
    obtain ⟨text, tokens, following, hc, ht, hf, rfl⟩ := exists_of_streamFrom_cons h
    cases sources with
    | nil =>
      obtain rfl := Except.ok.inj hf
      exact ⟨tokens ++ [], source, text, .cons hc ht (.nil _), rfl, hc, by simp⟩
    | cons next rest =>
      obtain ⟨us, last, text', hus, hlast, hc', rfl⟩ := ih (by simp) hf
      refine ⟨tokens ++ us, last, text', .cons hc ht hus, by rwa [List.getLast?_cons_cons], hc', ?_⟩
      have hfile : file + 1 + (next :: rest).length - 1 = file + (source :: next :: rest).length - 1 := by
        simp only [List.length_cons]
        omega
      rw [hfile, List.append_assoc]

/-- The tokens of sources stand in them. -/
theorem Segments.standsIn (h : Segments disk 0 sources us) (ht : t ∈ us) : t.StandsIn disk sources := by
  have hrun : [t] <:+: us := by
    obtain ⟨before, after, rfl⟩ := List.append_of_mem ht
    exact ⟨before, after, by simp⟩
  have hfile : ∀ u ∈ [t], u.span.file = t.span.file := fun u hu => by rw [List.mem_singleton.1 hu]
  obtain ⟨source, text, tokens, hsource, hc, htokens, hin⟩ := h.exists_of_infix hrun (List.cons_ne_nil _ _) hfile
  have hmem : t ∈ tokens := hin.subset List.mem_cons_self
  obtain ⟨slice, hcovers, hlexes, _⟩ := Token.exists_covers_token htokens hmem
  exact ⟨source, text, tokens, slice, hsource, hc, htokens, hmem, hcovers, hlexes⟩

/-- A stream consists of tokens that stand in the sources, and an end of file at the end of the last. -/
theorem exists_stream (hne : sources ≠ []) (h : stream disk sources = .ok ts) : ∃ us, ∃ e : TokenOf .endOfFile,
    ts = us ++ [e.token] ∧ Segments disk 0 sources us ∧ e.token.EndsLast disk sources := by
  obtain ⟨us, source, text, hus, hlast, hc, rfl⟩ := exists_stream_end hne h
  rw [Nat.zero_add]
  exact ⟨us, ⟨_, rfl⟩, rfl, hus, source, text, hlast, hc, rfl⟩

/-- A source that is not cut into tokens has a place where no token starts. -/
theorem exists_lexical {text : String} {problem : Diagnostic} (h : Token.ofText text file = .error problem) :
    ∃ reason span, problem = .lexical reason span ∧ span.file = file := by
  rw [Token.ofText_eq] at h
  split at h
  · cases h
  · exact ⟨_, _, (Except.error.inj h).symm, rfl⟩

/-- A problem with a stream is a source that cannot be read or cut into tokens. -/
theorem problem_of_streamFrom {problem : Diagnostic} (h : streamFrom disk file finish sources = .error problem) :
    (∃ fault, problem = .unreadable fault) ∨ ∃ reason span source text, problem = .lexical reason span ∧
      file ≤ span.file ∧ sources[span.file - file]? = some source ∧ source.content disk = .ok text ∧
        Token.ofText text span.file = .error problem := by
  induction sources generalizing file finish with
  | nil => cases h
  | cons source sources ih =>
    cases hc : source.content disk with
    | error fault =>
      rw [streamFrom, hc] at h
      exact .inl ⟨fault, (Except.error.inj h).symm⟩
    | ok text =>
      cases ht : Token.ofText text file with
      | error p =>
        have hp : p = problem := by simpa [streamFrom, hc, ht, Except.mapError, bind, Except.bind] using h
        obtain ⟨reason, span, rfl, rfl⟩ := exists_lexical ht
        subst hp
        exact .inr ⟨reason, span, source, text, rfl, Nat.le_refl _, by simp, hc, ht⟩
      | ok tokens =>
        rw [streamFrom_cons hc ht] at h
        rcases ih (map_eq_error_iff.1 h) with hfault | ⟨reason, span, source', text', rfl, hle, hsource, hc', ht'⟩
        · exact .inl hfault
        · refine .inr ⟨reason, span, source', text', rfl, by omega, ?_, hc', ht'⟩
          rw [show span.file - file = span.file - (file + 1) + 1 by omega, List.getElem?_cons_succ]
          exact hsource

end Source

/-! ## Spans of schemas -/

/-- The span of a type has the number of its first token. -/
theorem FieldType.Derivation.file_span (d : Derivation) : d.type.span.file = d.first.span.file := by
  induction d with
  | name word =>
    rw [type, ofName]
    split <;> rfl
  | map | array => rfl
  | suffix element brackets ih => exact ih

theorem FieldType.Derivation.exists_of_mem_parts_span {d : Derivation} {span : Span}
    (h : span ∈ d.type.parts.map FieldType.span) : ∃ t ∈ d.tokens, t.span.file = span.file := by
  obtain ⟨p, hp, rfl⟩ := List.mem_map.1 h
  obtain ⟨e, rfl, he⟩ := exists_of_mem_parts hp
  exact ⟨e.first, he.subset e.first_mem, e.file_span.symm⟩

/-- The spans of a definition have numbers of its tokens. -/
theorem Definition.Derivation.exists_of_mem_spans {d : Derivation} {span : Span} (h : span ∈ d.definition.spans) :
    ∃ t ∈ d.tokens, t.span.file = span.file := by
  have hname := d.extent_suffix.subset d.name_mem_extent
  rcases List.mem_cons.1 h with rfl | h
  · exact ⟨d.name.token, hname, rfl⟩
  · obtain ⟨_, hf, hs⟩ := List.mem_flatMap.1 h
    obtain ⟨f, hmem, rfl⟩ := List.mem_map.1 hf
    have hfield := (field_infix_extent hmem).trans d.extent_suffix.isInfix
    rcases List.mem_cons.1 hs with rfl | hs
    · exact ⟨f.body.name.token, hfield.subset f.name_mem, rfl⟩
    · obtain ⟨t, ht, rfl⟩ := List.mem_map.1 hs
      rcases Field.Body.exists_of_mem_parts ht with rfl | ⟨e, rfl, he⟩
      · exact ⟨d.name.token, hname, rfl⟩
      · exact ⟨e.first, hfield.subset (f.body_infix.subset (he.subset e.first_mem)), e.file_span.symm⟩

/-! ## Places of problems -/

namespace Diagnostic

/-- All spans in a problem. -/
def spans : Diagnostic → List Span
  | unreadable _ | missingEndOfFile => []
  | lexical _ span => [span]
  | unexpectedToken _ actual _ => [actual.span]
  | unknownAttribute _ token => [token.span]
  | reservedIdentifier _ span => [span]
  | invalidMapKey key => key.parts.map FieldType.span
  | multipleDefinitions _ span => [span]
  | unrecognizedType _ _ span => [span]
  | invalidNumber _ span => [span]
  | invalidAttribute _ _ _ span => [span]

/-- The lexeme and the place of the one token that a problem names. -/
def named? : Diagnostic → Option (String × Span)
  | unknownAttribute keyword token => some (keyword, token.span)
  | reservedIdentifier name span => some (name, span)
  | multipleDefinitions name span => some (name, span)
  | unrecognizedType name _ span => some (name, span)
  | invalidNumber lexeme span => some (lexeme, span)
  | unreadable _ | lexical _ _ | unexpectedToken _ _ _ | invalidMapKey _ | invalidAttribute _ _ _ _
  | missingEndOfFile => none

/-- The place of a problem is one of its spans. -/
theorem mem_spans {problem : Diagnostic} {span : Span} (h : problem.span? = some span) : span ∈ problem.spans := by
  cases problem with
  | unreadable | missingEndOfFile => cases h
  | invalidMapKey key =>
    obtain rfl := Option.some.inj h
    cases key <;> exact List.mem_cons_self
  | _ => exact List.mem_singleton.2 (Option.some.inj h).symm

variable {ts : List Token} {problem : Diagnostic}

theorem Concerns.exists_of_mem_spans (h : problem.Concerns ts) {span : Span} (hs : span ∈ problem.spans) :
    ∃ t ∈ ts, t.span.file = span.file := by
  cases h with
  | invalidMapKey d mem =>
    obtain ⟨t, ht, hfile⟩ := FieldType.Derivation.exists_of_mem_parts_span hs
    exact ⟨t, mem.subset ht, hfile⟩
  | unexpectedToken mem | unknownAttribute _ mem | reservedIdentifier mem | multipleDefinitions _ mem
  | unrecognizedType _ mem | invalidNumber _ mem => exact ⟨_, mem, by rw [List.mem_singleton.1 hs]⟩

theorem Concerns.exists_named (h : problem.Concerns ts) {name : String} {span : Span}
    (hn : problem.named? = some (name, span)) : ∃ t ∈ ts, t.lexeme = name ∧ t.span = span := by
  cases h with
  | unexpectedToken | invalidMapKey => cases hn
  | unknownAttribute _ mem | reservedIdentifier mem | multipleDefinitions _ mem | unrecognizedType _ mem
  | invalidNumber _ mem =>
    obtain ⟨rfl, rfl⟩ := Prod.mk.inj (Option.some.inj hn)
    exact ⟨_, mem, rfl, rfl⟩

/-- A problem with all of its places in the sources. A token that is not expected stands there, or is the end of the
last source; a token that is named stands there; and a text that has no token at a place is the one of that source. -/
structure Placed (disk : Disk) (sources : List Source) (problem : Diagnostic) : Prop where
  spans : ∀ span ∈ problem.spans, span.file < sources.length
  unexpected : ∀ expected actual hint, problem = .unexpectedToken expected actual hint →
    actual.StandsIn disk sources ∨ actual.EndsLast disk sources
  named : ∀ name span, problem.named? = some (name, span) →
    ∃ t : Token, t.lexeme = name ∧ t.span = span ∧ t.StandsIn disk sources
  lexical : ∀ reason span, problem = .lexical reason span → ∃ source text, sources[span.file]? = some source ∧
    source.content disk = .ok text ∧ Token.ofText text span.file = .error problem

variable {disk : Disk} {sources : List Source}

theorem placed_of_unreadable (fault : FileFault) : (unreadable fault).Placed disk sources where
  spans _ h := by cases h
  unexpected _ _ _ h := by cases h
  named _ _ h := by cases h
  lexical _ _ h := by cases h

/-- Problems with the tokens of sources are in the sources. -/
theorem Concerns.placed (h : problem.Concerns ts) (hts : Source.Segments disk 0 sources ts) :
    problem.Placed disk sources where
  spans span hs := by
    obtain ⟨t, ht, hfile⟩ := h.exists_of_mem_spans hs
    exact hfile ▸ (hts.standsIn ht).file_lt
  unexpected expected actual hint hu := by
    subst hu
    cases h with
    | unexpectedToken mem => exact .inl (hts.standsIn mem)
  named name span hn := by
    obtain ⟨t, hmem, hlexeme, hspan⟩ := h.exists_named hn
    exact ⟨t, hlexeme, hspan, hts.standsIn hmem⟩
  lexical reason span hl := by
    subst hl
    cases h

theorem placed_of_endsLast {t : Token} (h : t.EndsLast disk sources) (expected : List TokenKind)
    (hint : Option String) : (unexpectedToken expected t hint).Placed disk sources where
  spans span hs := by
    rw [List.mem_singleton.1 hs]
    exact h.file_lt
  unexpected expected actual hint hu := by
    obtain ⟨rfl, rfl, rfl⟩ := Diagnostic.unexpectedToken.inj hu
    exact .inr h
  named name span hn := by cases hn
  lexical reason span hl := by cases hl

theorem placed_of_stream (h : Source.stream disk sources = .error problem) : problem.Placed disk sources := by
  rcases Source.problem_of_streamFrom h with ⟨fault, rfl⟩ | ⟨reason, span, source, text, rfl, -, hsource, hc, ht⟩
  · exact placed_of_unreadable fault
  · refine ⟨fun s hs => ?_, fun _ _ _ hu => (by cases hu), fun _ _ hn => (by cases hn), fun reason' span' heq => ?_⟩
    · rw [List.mem_singleton.1 hs]
      exact (List.getElem?_eq_some_iff.1 hsource).1
    · obtain ⟨rfl, rfl⟩ := Diagnostic.lexical.inj heq
      exact ⟨source, text, hsource, hc, ht⟩

end Diagnostic

namespace Schema

variable {disk : Disk} {sources : List Source} {ns : String} {s : Schema} {problem : Diagnostic}

/-- The spans of a schema are in the sources. -/
theorem file_lt_of_mem_spans (hne : sources ≠ []) (h : ofSources disk sources ns = .ok s) {d : Definition}
    (hd : d ∈ s.definitions) {span : Span} (hs : span ∈ d.spans) : span.file < sources.length := by
  cases hts : Source.stream disk sources with
  | error problem =>
    rw [ofSources, hts] at h
    cases h
  | ok ts =>
    rw [ofSources, hts] at h
    obtain ⟨us, e, rfl, hus, -⟩ := Source.exists_stream hne hts
    obtain ⟨D, hD, rfl⟩ := exists_derivation h
    rw [Token.beforeEnd_append hus.kind_ne e.kind_eq] at hD
    obtain ⟨e, he, rfl⟩ := List.mem_map.1 hd
    obtain ⟨t, ht, hfile⟩ := e.exists_of_mem_spans hs
    have hin : e.tokens <:+: us := hD ▸ Derivation.infix_of_mem he
    exact hfile ▸ (hus.standsIn (hin.subset ht)).file_lt

/-- Every problem with reading sources is in them. -/
theorem placed_of_ofSources (hne : sources ≠ []) (h : ofSources disk sources ns = .error problem) :
    problem.Placed disk sources := by
  cases hts : Source.stream disk sources with
  | error p =>
    rw [ofSources, hts] at h
    obtain rfl := Except.error.inj h
    exact Diagnostic.placed_of_stream hts
  | ok ts =>
    rw [ofSources, hts] at h
    obtain ⟨us, e, rfl, hus, hend⟩ := Source.exists_stream hne hts
    rcases concerns_of_ofTokens hus.kind_ne e h with hc | ⟨expected, hint, rfl⟩
    · exact hc.placed hus
    · exact Diagnostic.placed_of_endsLast hend expected hint

/-- Every problem with compiling sources is in them. -/
theorem placed_of_compileSources (hne : sources ≠ []) (h : compileSources disk sources ns = .error problem) :
    problem.Placed disk sources := by
  rw [compileSources_eq] at h
  cases hs : ofSources disk sources ns with
  | error p =>
    rw [hs] at h
    obtain rfl := Except.error.inj h
    exact placed_of_ofSources hne hs
  | ok s =>
    rw [hs] at h
    obtain ⟨d, keyword, reason, ⟨before, after, hds, _⟩, rfl⟩ := exists_of_validated h
    refine ⟨fun span hspan => ?_, fun _ _ _ hu => (by cases hu), fun _ _ hn => (by cases hn),
      fun _ _ hl => (by cases hl)⟩
    rw [List.mem_singleton.1 hspan]
    exact file_lt_of_mem_spans hne hs (d := d) (by simp [hds]) List.mem_cons_self

end Schema

/-! ## Reports -/

/-- A place in a report: its line and its column. -/
theorem Span.text_eq (s : Span) : s.text = String.ofList (Text.decimal s.start.line) ++ ":" ++
    String.ofList (Text.decimal s.start.column) :=
  String.toList_inj.1 (by simp [text])

namespace Command

theorem inputs_of_settings {options : List ValueOption} {words : List String} {s : Settings}
    (h : settings options words = .ok s) : s.inputs ≠ [] := by
  rw [settings] at h
  obtain ⟨given, _, h⟩ := exists_of_bind_eq_ok h
  split at h
  · cases h
  · rename_i hne
    obtain rfl := Except.ok.inj h
    exact hne

/-- A command has an input. -/
theorem inputs_ne_nil {words : List String} {command : Command} (h : ofArguments? words = some command) :
    command.inputs ≠ [] := by
  rw [ofArguments?_eq_some_iff] at h
  induction words with
  | nil => cases h
  | cons word rest ih =>
    rw [request] at h
    split at h
    · exact ih h
    · cases h
    · cases h
    · split at h
      · obtain ⟨s, hs, rfl⟩ := exists_of_map_eq_ok h
        exact inputs_of_settings hs
      · split at h
        · obtain ⟨s, hs, rfl⟩ := exists_of_map_eq_ok h
          exact inputs_of_settings hs
        · split at h <;> cases h

end Command

namespace CommandLine

/-- The report of a problem at a place of a file: the path, the line, the column and the message. -/
def reportAt (path : String) (span : Span) (message : String) : Report :=
  ⟨1, "", some ("error: " ++ path ++ ":" ++ String.ofList (Text.decimal span.start.line) ++ ":" ++
    String.ofList (Text.decimal span.start.column) ++ ": " ++ message ++ "\n")⟩

/-- The report of a located problem starts with the path of the input that has its number, and the place there. -/
theorem exists_report {files : Files} {words : List String} {command : Command} {problem : Diagnostic} {span : Span}
    (hc : Command.ofArguments? words = some command)
    (h : Schema.compileSources files.disk (command.inputs.map Source.file) command.ns = .error problem)
    (hs : problem.span? = some span) : ∃ path, command.inputs[span.file]? = some path ∧
      run files words = (reportAt path span problem.message, files) := by
  have hne : command.inputs.map Source.file ≠ [] := by simpa using Command.inputs_ne_nil hc
  have hlt := (Schema.placed_of_compileSources hne h).spans span (Diagnostic.mem_spans hs)
  rw [List.length_map] at hlt
  refine ⟨command.inputs[span.file], List.getElem?_eq_getElem hlt, ?_⟩
  rw [run_of_arguments hc, runCommand_of_error h, failure, Command.located, hs, reportAt]
  simp only [Source.nameOf?, List.getElem?_map, List.getElem?_eq_getElem hlt, Option.map_some, Option.getD_some,
    Source.name, Span.text_eq, String.append_assoc]

/-- Every token of a stream stands in the source whose number it has, or ends the last source. The spans of a schema
have numbers of sources, and so have those of every problem with compiling; a token that the problem is about stands in
its source. So a run that fails with a located problem reports the path of the input that has its number, and the place
there. -/
theorem reports_name_inputs (disk : Disk) (sources : List Source) (hne : sources ≠ []) (ns : String) :
    (∀ ts, Source.stream disk sources = .ok ts → ∀ t ∈ ts, t.span.file < sources.length ∧
      (t.StandsIn disk sources ∨ t.EndsLast disk sources)) ∧
    (∀ s, Schema.ofSources disk sources ns = .ok s → ∀ d ∈ s.definitions, ∀ span ∈ d.spans,
      span.file < sources.length) ∧
    (∀ problem, Schema.compileSources disk sources ns = .error problem → problem.Placed disk sources) ∧
    ∀ (files : Files) words command problem (span : Span), Command.ofArguments? words = some command →
      Schema.compileSources files.disk (command.inputs.map Source.file) command.ns = .error problem →
        problem.span? = some span → ∃ path, command.inputs[span.file]? = some path ∧
          run files words = (reportAt path span problem.message, files) := by
  refine ⟨fun ts h t ht => ?_, fun s h d hd span hs => Schema.file_lt_of_mem_spans hne h hd hs,
    fun problem h => Schema.placed_of_compileSources hne h, fun files words command problem span => exists_report⟩
  obtain ⟨us, e, rfl, hus, hend⟩ := Source.exists_stream hne h
  rcases List.mem_append.1 ht with ht | ht
  · exact ⟨(hus.standsIn ht).file_lt, .inl (hus.standsIn ht)⟩
  · rw [List.mem_singleton.1 ht]
    exact ⟨hend.file_lt, .inr hend⟩

/-- The second of two inputs lacks a semicolon, on its second line. -/
theorem reports_name_inputs_second :
    let files : Files :=
      ⟨[(["a"], .file "struct A \x7b \x7d".toUTF8), (["b"], .file "\nenum E \x7b X = 1 \x7d".toUTF8)]⟩
    let sources : List Source := [.file "a", .file "b"]
    let span : Span := ⟨1, ⟨16, 2, 16⟩, ⟨17, 2, 17⟩⟩
    let problem : Diagnostic :=
      .unexpectedToken [.semicolon] ⟨.closeBrace, "\x7d", span⟩ (some (Field.semicolonHint .enum))
    (∃ ts, Source.stream files.disk sources = .ok ts ∧ ∀ t ∈ ts, t.span.file < sources.length ∧
      (t.StandsIn files.disk sources ∨ t.EndsLast files.disk sources)) ∧
    (∃ s, Schema.ofSources files.disk [.file "a"] "" = .ok s ∧ ∀ d ∈ s.definitions, ∀ span ∈ d.spans, span.file < 1) ∧
    Schema.compileSources files.disk sources "" = .error problem ∧ problem.Placed files.disk sources ∧
    ∃ path, ["a", "b"][span.file]? = some path ∧
      run files ["check", "a", "b"] = (reportAt path span problem.message, files) := by
  intro files sources span problem
  obtain ⟨ts, hts⟩ : ∃ ts, Source.stream files.disk sources = .ok ts := exists_of_isOk (by decide +kernel)
  obtain ⟨s, hs⟩ : ∃ s, Schema.ofSources files.disk [.file "a"] "" = .ok s := exists_of_isOk (by decide +kernel)
  have hproblem : Schema.compileSources files.disk sources "" = .error problem := by decide +kernel
  obtain ⟨htokens, -, hplaced, hreport⟩ := reports_name_inputs files.disk sources (List.cons_ne_nil _ _) ""
  obtain ⟨-, hspans, -, -⟩ := reports_name_inputs files.disk [.file "a"] (List.cons_ne_nil _ _) ""
  exact ⟨⟨ts, hts, htokens ts hts⟩, ⟨s, hs, hspans s hs⟩, hproblem, hplaced problem hproblem,
    hreport files ["check", "a", "b"] (.check ["a", "b"] "") problem span (by decide) hproblem rfl⟩

end CommandLine

end SchemaLang
