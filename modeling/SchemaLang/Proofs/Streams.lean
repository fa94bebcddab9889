import SchemaLang.Proofs.Grammar.Token
import SchemaLang.Proofs.Positions
import SchemaLang.Source

/-!
# Streams of tokens

What the tokens of several sources are.

* `Source.streamFrom_cons` reads one source and then the others.
* `Source.Segments` says which tokens sources have together, one source after the other. Every stream consists of them
  and an end of file (`Source.exists_segments`). Tokens with one number that stand one after the other belong to one
  source (`Source.Segments.exists_of_infix`).
* The tokens of a text at hand are those of the text and an end of file at its end (`Source.stream_text`), and the text
  is read from them (`Schema.ofText_eq`). No token of a text ends the file (`Token.kind_ne_of_ofText`), and a mark is
  what it is written as (`Token.lexeme_of_mark`).
-/

namespace SchemaLang

namespace Token

variable {text : String} {file : Nat} {tokens : List Token} {t : Token}

/-- A token of a text comes from a proper element. -/
theorem exists_proper (h : ofText text file = .ok tokens) (ht : t ∈ tokens) :
    ∃ e : Element, e.Proper ∧ e.content? = some t.content := by
  obtain ⟨pre, e, post, hsplit, he, _⟩ := exists_element h ht
  obtain ⟨_, ha, _⟩ := Element.split_eq_iff.1 hsplit
  exact ⟨e, ha.proper e (by simp), he⟩

/-- No token of a text is an end of file. -/
theorem kind_ne_of_ofText (h : ofText text file = .ok tokens) (ht : t ∈ tokens) : t.kind ≠ .endOfFile := by
  obtain ⟨e, hp, he⟩ := exists_proper h ht
  exact (hp.of_content? he).1

/-- A token of a text with the kind of a mark is that mark. -/
theorem lexeme_of_mark (h : ofText text file = .ok tokens) (ht : t ∈ tokens) {char : Char}
    (hk : ∀ c, (c, t.kind) ∈ Element.marks ↔ c = char) : t.lexeme = String.ofList [char] := by
  obtain ⟨e, hp, he⟩ := exists_proper h ht
  obtain ⟨c, hc, hl⟩ := (hp.of_content? he).2 (List.mem_map.2 ⟨(char, t.kind), (hk char).2 rfl, rfl⟩)
  obtain rfl := (hk c).1 hc
  exact hl

end Token

namespace Source

variable {disk : Disk} {file : Nat} {finish : Span} {source : Source} {rest : List Source} {text : String}
  {tokens ts : List Token}

/-- The tokens of a source come before those of the others. -/
theorem streamFrom_cons (hc : source.content disk = .ok text) (ht : Token.ofText text file = .ok tokens) :
    streamFrom disk file finish (source :: rest) =
      (streamFrom disk (file + 1) (Span.point file (Position.finish text.toList)) rest).map (tokens ++ ·) := by
  rw [streamFrom, hc]
  simp only [Except.mapError, bind, Except.bind, ht]
  cases streamFrom disk (file + 1) (Span.point file (Position.finish text.toList)) rest <;> rfl

/-- Where there are tokens, the first source gives those in front. -/
theorem exists_of_streamFrom_cons (h : streamFrom disk file finish (source :: rest) = .ok ts) :
    ∃ text tokens following, source.content disk = .ok text ∧ Token.ofText text file = .ok tokens ∧
      streamFrom disk (file + 1) (Span.point file (Position.finish text.toList)) rest = .ok following ∧
        ts = tokens ++ following := by
  rw [streamFrom] at h
  obtain ⟨text, hc, h⟩ := exists_of_bind_eq_ok h
  obtain ⟨tokens, ht, h⟩ := exists_of_bind_eq_ok h
  obtain ⟨following, hf, h⟩ := exists_of_bind_eq_ok h
  exact ⟨text, tokens, following, eq_ok_of_mapError hc, ht, hf, (Except.ok.inj h).symm⟩

/-- The tokens of a text at hand, with an end of file. -/
theorem stream_text (h : Token.ofText text 0 = .ok ts) (disk : Disk) :
    stream disk [.text text] = .ok (ts ++ [Token.endOfFile (Span.point 0 (Position.finish text.toList))]) :=
  streamFrom_cons rfl h

/-- A text that is not cut into tokens has no stream. -/
theorem stream_text_error {problem : Diagnostic} (h : Token.ofText text 0 = .error problem) (disk : Disk) :
    stream disk [.text text] = .error problem := by
  simp [stream, streamFrom, content, Except.mapError, h, bind, Except.bind]

/-! ## Sources one after the other -/

/-- The tokens of sources with numbers from a first one on, one source after the other. -/
inductive Segments (disk : Disk) : Nat → List Source → List Token → Prop where
  | nil (file : Nat) : Segments disk file [] []
  | cons {file : Nat} {source : Source} {sources : List Source} {text : String} {tokens ts : List Token}
      (content : source.content disk = .ok text) (tokens_eq : Token.ofText text file = .ok tokens)
      (rest : Segments disk (file + 1) sources ts) : Segments disk file (source :: sources) (tokens ++ ts)

/-- A stream consists of the tokens of its sources and an end of file. -/
theorem exists_segments {sources : List Source} (h : streamFrom disk file finish sources = .ok ts) :
    ∃ us, ∃ e : TokenOf .endOfFile, ts = us ++ [e.token] ∧ Segments disk file sources us := by
  induction sources generalizing file finish ts with
  | nil => exact ⟨[], ⟨Token.endOfFile finish, rfl⟩, (Except.ok.inj h).symm, .nil file⟩
  | cons source sources ih =>
    obtain ⟨text, tokens, following, hc, ht, hf, rfl⟩ := exists_of_streamFrom_cons h
    obtain ⟨us, e, rfl, hus⟩ := ih hf
    exact ⟨tokens ++ us, e, by rw [List.append_assoc], .cons hc ht hus⟩

namespace Segments

variable {sources : List Source} {t : Token} {run : List Token} {n : Nat}

theorem kind_ne (h : Segments disk file sources ts) : ∀ t ∈ ts, t.kind ≠ .endOfFile := by
  induction h with
  | nil => simp
  | cons _ ht _ ih => exact List.forall_mem_append.2 ⟨fun _ => Token.kind_ne_of_ofText ht, ih⟩

/-- The tokens have the numbers of the sources. -/
theorem le_file (h : Segments disk file sources ts) : ∀ t ∈ ts, file ≤ t.span.file := by
  induction h with
  | nil => simp
  | cons _ ht _ ih =>
    refine List.forall_mem_append.2 ⟨fun t hmem => ?_, fun t hmem => Nat.le_of_succ_le (ih t hmem)⟩
    exact Nat.le_of_eq ((Token.lined_ofText ht).file_eq t hmem).symm

/-- The numbers do not go down. -/
theorem pairwise_file (h : Segments disk file sources ts) : ts.Pairwise fun a b => a.span.file ≤ b.span.file := by
  induction h with
  | nil => exact .nil
  | @cons file source sources text tokens ts _ ht hrest ih =>
    have hfile := (Token.lined_ofText ht).file_eq
    refine List.pairwise_append.2 ⟨?_, ih, fun a ha b hb => ?_⟩
    · exact List.pairwise_of_forall_mem_list fun a ha b hb => Nat.le_of_eq ((hfile a ha).trans (hfile b hb).symm)
    · have hle := hrest.le_file b hb
      rw [hfile a ha]
      omega

/-- Tokens of one number that stand one after the other are tokens of one source. -/
theorem exists_of_infix (h : Segments disk file sources ts) (hrun : run <:+: ts) (hne : run ≠ [])
    (hfile : ∀ t ∈ run, t.span.file = n) : ∃ source text tokens, sources[n - file]? = some source ∧
      source.content disk = .ok text ∧ Token.ofText text n = .ok tokens ∧ run <:+: tokens := by
  induction h with
  | nil => exact absurd (List.infix_nil.1 hrun) hne
  | @cons file source sources text tokens ts hc ht hrest ih =>
    have hfirst := (Token.lined_ofText ht).file_eq
    have hlater := hrest.le_file
    have hsplit : run <:+: tokens ∨ run <:+: ts := by
      rcases List.infix_append_iff.1 hrun with hrun | hrun | ⟨us, vs, rfl, hus, hvs⟩
      · exact .inl hrun
      · exact .inr hrun
      · cases us with
        | nil => exact .inr hvs.isInfix
        | cons u us =>
          cases vs with
          | nil => exact .inl (by simpa using hus.isInfix)
          | cons v vs =>
            have hu := hfirst u (hus.subset List.mem_cons_self)
            have hv := hlater v (hvs.subset List.mem_cons_self)
            have hun := hfile u (by simp)
            have hvn := hfile v (by simp)
            omega
    obtain ⟨t, ht'⟩ := List.exists_mem_of_ne_nil run hne
    have htn := hfile t ht'
    rcases hsplit with hrun | hrun
    · obtain rfl : n = file := htn.symm.trans (hfirst t (hrun.subset ht'))
      exact ⟨source, text, tokens, by simp, hc, ht, hrun⟩
    · have hle := hlater t (hrun.subset ht')
      have hindex : n - file = n - (file + 1) + 1 := by omega
      rw [hindex]
      exact ih hrun

end Segments

end Source

/-! ## Texts at hand -/

namespace Schema

variable {text : String} {tokens : List Token}

/-- A text is read from its tokens with an end of file at the end of the text. -/
theorem ofText_eq (h : Token.ofText text 0 = .ok tokens) (ns : String) : ofText text ns =
    ofTokens (tokens ++ [Token.endOfFile (Span.point 0 (Position.finish text.toList))]) ns := by
  rw [ofText, ofSources, Source.stream_text h]
  rfl

theorem compileText_eq (h : Token.ofText text 0 = .ok tokens) (ns : String) : compileText text ns =
    compile (tokens ++ [Token.endOfFile (Span.point 0 (Position.finish text.toList))]) ns := by
  rw [compileText, compileSources, Source.stream_text h]
  rfl

/-- A text that is not cut into tokens is no schema. -/
theorem ofText_error {problem : Diagnostic} (h : Token.ofText text 0 = .error problem) (ns : String) :
    ofText text ns = .error problem := by
  rw [ofText, ofSources, Source.stream_text_error h]
  rfl

end Schema

end SchemaLang
