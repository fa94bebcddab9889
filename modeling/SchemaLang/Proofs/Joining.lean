import SchemaLang.Proofs.Blindness
import SchemaLang.Proofs.Streams

/-!
# Sources together and their joined text

Several sources are read as the one text that joins them with line feeds.

* No element goes over a line feed that is put between two texts, except white space. So the joined text is cut into the
  tokens of the one and then the tokens of the other (`Element.exists_split_newline`).
* `Span.joined` is the span in the joined text: the bytes and lines of all texts in front, and of a line feed behind
  each of them, are added. Moving over text commutes with that (`Position.shift_advance`).
* Main result: `Schema.compileSources_joined`. The tokens are the same, at these places, and so is the outcome, apart
  from places.
-/

namespace SchemaLang

/-! ## Elements of a joined text -/

namespace Element

variable {s s' g : List Char} {es es' : List Element}

/-- White space in front of a text is added to white space there, or is an element of its own. -/
theorem exists_split_blanks (hne : g ≠ []) (hg : ∀ c ∈ g, Text.isBlank c = true) (h : split s = (es, [])) :
    ∃ fs, split (g ++ s) = (fs, []) ∧
      ∀ file p, Token.ofElements file p fs = Token.ofElements file (p.advance g) es := by
  obtain ⟨hs, ha, hn⟩ := split_eq_iff.1 h
  rw [List.append_nil] at hs
  by_cases hc : (blanks g).Stops s
  · refine ⟨blanks g :: es, split_eq_iff.2 ⟨by simp [hs, text], ⟨⟨hne, hg⟩, ?_, ha⟩, hn⟩, fun file p => rfl⟩
    rwa [List.append_nil, ← hs]
  · cases s with
    | nil => exact absurd (by simp [Stops]) hc
    | cons c s =>
      have hblank : Text.isBlank c = true := by simpa [Stops, continues] using hc
      rw [split_eq, scan?_blank hblank] at h
      obtain ⟨rfl, _⟩ := Prod.mk.inj h
      obtain ⟨⟨_, hw⟩, hstops, hrest⟩ := ha
      refine ⟨blanks (g ++ c :: s.takeWhile Text.isBlank) :: (split (s.dropWhile Text.isBlank)).1,
        split_eq_iff.2 ⟨?_, ⟨⟨?_, List.forall_mem_append.2 ⟨hg, hw⟩⟩, hstops, hrest⟩, hn⟩, fun file p => ?_⟩
      · rw [hs]
        simp [text]
      · simp [hne]
      · simp only [Token.ofElements, token?, text, Position.advance_append]

/-- An element that would take a line feed is white space. -/
theorem exists_of_continues_newline {e : Element} (h : e.continues '\n' = true) : ∃ w, e = blanks w := by
  cases e with
  | blanks w => exact ⟨w, rfl⟩
  | blockComment | lineComment | escapedString | rawString | mark => simp [continues] at h
  | digits w =>
    have hd : Text.isDecimalDigit '\n' = true := h
    exact absurd hd (by decide)
  | word w =>
    have hw : isWordChar '\n' = true := h
    exact absurd hw (by decide)

/-- The elements of two texts with a line feed between them give the tokens of the one and then the tokens of the
other. -/
theorem exists_split_newline (h : split s = (es, [])) (h' : split s' = (es', [])) :
    ∃ fs, split (s ++ '\n' :: s') = (fs, []) ∧ ∀ file p, Token.ofElements file p fs =
      Token.ofElements file p es ++ Token.ofElements file (p.advance (s ++ ['\n'])) es' := by
  have hnewline : ∀ c ∈ ['\n'], Text.isBlank c = true := List.forall_mem_singleton.2 (by decide)
  induction es generalizing s with
  | nil =>
    obtain ⟨hs, _⟩ := split_eq_iff.1 h
    obtain rfl : s = [] := hs
    exact exists_split_blanks (by simp) hnewline h'
  | cons e es ih =>
    obtain ⟨hs, ⟨hp, hstops, ha⟩, hn⟩ := split_eq_iff.1 h
    obtain rfl : s = e.text ++ (es.flatMap text ++ []) := by rw [hs, List.flatMap_cons, List.append_assoc]
    by_cases hc : e.Stops (es.flatMap text ++ [] ++ '\n' :: s')
    · obtain ⟨fs, hfs, htokens⟩ := ih (split_eq_iff.2 ⟨rfl, ha, hn⟩)
      refine ⟨e :: fs, ?_, fun file p => ?_⟩
      · rw [List.append_assoc, split_eq, scan?_text_append hp hc]
        simp only [hfs]
      · rw [Token.ofElements_cons, Token.ofElements_cons, htokens, ← Position.advance_append]
        simp only [List.append_assoc]
    · -- only white space goes on with the line feed, and only at the end of the text
      obtain rfl : es = [] := by
        cases es with
        | nil => rfl
        | cons f es =>
          obtain ⟨c, w, hw⟩ := List.exists_cons_of_ne_nil (text_ne_nil ha.1)
          rw [List.flatMap_cons, hw] at hc hstops
          exact absurd hstops hc
      obtain ⟨w, rfl⟩ := exists_of_continues_newline (by simpa [Stops] using hc)
      obtain ⟨fs, hfs, htokens⟩ := exists_split_blanks (by simp) (List.forall_mem_append.2 ⟨hp.2, hnewline⟩) h'
      exact ⟨fs, by simpa [text] using hfs, by simpa [text, Token.ofElements, token?] using htokens⟩

end Element

/-! ## Places in a joined text -/

/-- A position with more bytes and lines in front. -/
def Position.shift (bytes lines : Nat) (p : Position) : Position := ⟨p.offset + bytes, p.line + lines, p.column⟩

theorem Position.shift_advance (bytes lines : Nat) (s : List Char) : ∀ p : Position,
    (p.shift bytes lines).advance s = (p.advance s).shift bytes lines := by
  induction s with
  | nil => exact fun _ => rfl
  | cons c s ih =>
    intro p
    have hstep : (p.shift bytes lines).step c = (p.step c).shift bytes lines := by
      simp only [step, shift]
      split
      · simp only [mk.injEq, and_true]
        omega
      · simp only [mk.injEq, and_true]
        omega
    rw [advance_cons, advance_cons, hstep, ih]

/-- The bytes of texts with a line feed behind each. -/
def Text.bytesBefore (texts : List String) : Nat := texts.foldl (fun bytes t => bytes + (t.utf8ByteSize + 1)) 0

/-- The lines of texts with a line feed behind each. -/
def Text.linesBefore (texts : List String) : Nat := texts.foldl (fun lines t => lines + (t.toList.count '\n' + 1)) 0

/-- A span of one of several texts as a span of the joined text. -/
def Span.joined (texts : List String) (s : Span) : Span where
  file := 0
  start := s.start.shift (Text.bytesBefore (texts.take s.file)) (Text.linesBefore (texts.take s.file))
  stop := s.stop.shift (Text.bytesBefore (texts.take s.file)) (Text.linesBefore (texts.take s.file))

/-- A token of one of several texts as a token of the joined text. -/
def Token.joined (texts : List String) (t : Token) : Token := { t with span := t.span.joined texts }

/-- The place of a text in a joined text, behind the texts in front. -/
def Position.startBehind (texts : List String) : Position :=
  start.shift (Text.bytesBefore texts) (Text.linesBefore texts)

/-- The next text starts in a new line, behind one more line feed. -/
theorem Position.startBehind_concat (texts : List String) (t : String) :
    (startBehind texts).advance (t.toList ++ ['\n']) = startBehind (texts ++ [t]) := by
  have hnewline : "\n".utf8ByteSize = 1 := by decide
  have hbehind : behind (t.toList ++ ['\n']) = start.shift (t.utf8ByteSize + 1) (t.toList.count '\n' + 1) := by
    simp [behind, shift, start, String.ofList_append, String.ofList_toList, hnewline]
    omega
  rw [startBehind, shift_advance, advance_start, hbehind]
  simp [startBehind, Text.bytesBefore, Text.linesBefore, shift]
  omega

namespace Token

/-- A text behind others in the joined text has the tokens of the text. -/
theorem ofElements_shift (past rest : List String) (es : List Element) (p : Position) :
    ofElements 0 (p.shift (Text.bytesBefore past) (Text.linesBefore past)) es =
      (ofElements past.length p es).map (joined (past ++ rest)) := by
  induction es generalizing p with
  | nil => rfl
  | cons e es ih =>
    rw [ofElements, ofElements, Position.shift_advance]
    cases e.token? with
    | none => exact ih _
    | some t => simp [ih, joined, Span.joined]

theorem joined_endOfFile (past rest : List String) (p : Position) :
    joined (past ++ rest) (endOfFile (Span.point past.length p)) =
      endOfFile (Span.point 0 (p.shift (Text.bytesBefore past) (Text.linesBefore past))) := by
  simp [joined, Span.joined, endOfFile, Span.point]

end Token

namespace Source

/-- The tokens of sources behind others are those of their joined text, by induction on the sources. -/
theorem exists_stream_joined {disk : Disk} : ∀ {texts past : List String} {sources : List Source} {finish : Span},
    sources.map (content disk) = texts.map .ok → texts ≠ [] → (∀ t ∈ texts, ∃ es, Element.split t.toList = (es, [])) →
      ∃ ts es, streamFrom disk past.length finish sources = .ok ts ∧
        Element.split ("\n".intercalate texts).toList = (es, []) ∧
          ts.map (Token.joined (past ++ texts)) = Token.ofElements 0 (.startBehind past) es ++
            [Token.endOfFile (Span.point 0 ((Position.startBehind past).advance ("\n".intercalate texts).toList))]
  | [], _, _, _, _, hne, _ => absurd rfl hne
  | [t], past, sources, finish, hc, _, ht => by
    obtain ⟨source, rest, rfl, hsource, hrest⟩ := List.map_eq_cons_iff.1 hc
    obtain rfl := List.map_eq_nil_iff.1 hrest
    obtain ⟨es, hes⟩ := ht t (by simp)
    refine ⟨_, es, streamFrom_cons hsource (Token.ofText_eq_ok_iff.2 ⟨es, hes, rfl⟩), by simpa using hes, ?_⟩
    rw [List.map_append, Position.startBehind, ← Token.ofElements_shift, Position.shift_advance,
      String.intercalate_singleton, List.map_singleton, Token.joined_endOfFile, Position.finish_eq_advance]
  | t :: u :: texts, past, sources, finish, hc, _, ht => by
    obtain ⟨source, rest, rfl, hsource, hrest⟩ := List.map_eq_cons_iff.1 hc
    obtain ⟨es, hes⟩ := ht t (by simp)
    obtain ⟨ts, es', hts, hes', heq⟩ := @exists_stream_joined disk (u :: texts) (past ++ [t]) rest
      (Span.point past.length (Position.finish t.toList)) hrest (by simp) fun v hv => ht v (List.mem_cons_of_mem t hv)
    obtain ⟨fs, hfs, htokens⟩ := Element.exists_split_newline hes hes'
    have hjoined : ("\n".intercalate (t :: u :: texts)).toList =
        t.toList ++ '\n' :: ("\n".intercalate (u :: texts)).toList := by
      simp [String.intercalate_cons_cons]
    have hrest : streamFrom disk (past.length + 1) (Span.point past.length (Position.finish t.toList)) rest =
        .ok ts := by
      rwa [List.length_append] at hts
    have hfinish : (Position.startBehind past).advance (t.toList ++ '\n' :: ("\n".intercalate (u :: texts)).toList) =
        (Position.startBehind (past ++ [t])).advance ("\n".intercalate (u :: texts)).toList := by
      rw [List.append_cons, Position.advance_append, Position.startBehind_concat]
    refine ⟨Token.ofElements past.length Position.start es ++ ts, fs, ?_, by rw [hjoined, hfs], ?_⟩
    · rw [streamFrom_cons hsource (Token.ofText_eq_ok_iff.2 ⟨es, hes, rfl⟩), hrest]
      rfl
    · rw [List.append_assoc, List.singleton_append] at heq
      rw [List.map_append, heq, ← Token.ofElements_shift, ← Position.startBehind, htokens, Position.startBehind_concat,
        hjoined, hfinish, List.append_assoc]

/-- The tokens of sources are those of the text that joins them, at their places in it. -/
theorem stream_joined {disk : Disk} {sources : List Source} {texts : List String}
    (hc : sources.map (content disk) = texts.map .ok) (hne : texts ≠ [])
    (ht : ∀ t ∈ texts, ∃ ts, Token.ofText t 0 = .ok ts) :
    ∃ ts, stream disk sources = .ok ts ∧
      stream Disk.empty [.text ("\n".intercalate texts)] = .ok (ts.map (Token.joined texts)) := by
  have hsplit : ∀ t ∈ texts, ∃ es, Element.split t.toList = (es, []) := fun t hmem => by
    obtain ⟨ts, hts⟩ := ht t hmem
    obtain ⟨es, hes, _⟩ := Token.ofText_eq_ok_iff.1 hts
    exact ⟨es, hes⟩
  obtain ⟨ts, es, hts, hes, heq⟩ := @exists_stream_joined disk texts [] sources Span.zero hc hne hsplit
  have hstart : Position.startBehind [] = Position.start := rfl
  rw [hstart, List.nil_append] at heq
  exact ⟨ts, hts, by rw [stream_text (Token.ofText_eq_ok_iff.2 ⟨es, hes, rfl⟩), heq, Position.finish_eq_advance]⟩

end Source

/-- Sources are read as the text that joins them with line feeds: the tokens are the same, at their places in the joined
text, and so is the outcome of compiling them, apart from places. -/
theorem Schema.compileSources_joined {disk : Disk} {sources : List Source} {texts : List String}
    (hc : sources.map (Source.content disk) = texts.map .ok) (hne : texts ≠ [])
    (ht : ∀ t ∈ texts, ∃ ts, Token.ofText t 0 = .ok ts) :
    (∃ ts, Source.stream disk sources = .ok ts ∧
      Source.stream Disk.empty [.text ("\n".intercalate texts)] = .ok (ts.map (Token.joined texts))) ∧
        ∀ ns, bareOutcome (compileSources disk sources ns) = bareOutcome (compileText ("\n".intercalate texts) ns) := by
  obtain ⟨ts, hts, hjoined⟩ := Source.stream_joined hc hne ht
  refine ⟨⟨ts, hts, hjoined⟩, fun ns => ?_⟩
  rw [compileText, compileSources, compileSources, hts, hjoined]
  refine bareOutcome_compile_congr ?_ ns
  rw [List.map_map]
  rfl

/-- A definition that starts in front of a line comment without a line feed and goes on in another file. -/
theorem Schema.compileSources_joined_comment :
    let disk : Disk := fun path => if path = "a" then .ok "struct A \x7b // \u00e9" else .ok " A[] next; \x7d 7"
    let sources : List Source := [.file "a", .file "b"]
    let texts := ["struct A \x7b // \u00e9", " A[] next; \x7d 7"]
    sources.map (Source.content disk) = texts.map .ok ∧ texts ≠ [] ∧ (∀ t ∈ texts, ∃ ts, Token.ofText t 0 = .ok ts) ∧
      (∃ ts, Source.stream disk sources = .ok ts ∧
        Source.stream Disk.empty [.text ("\n".intercalate texts)] = .ok (ts.map (Token.joined texts))) ∧
          bareOutcome (compileSources disk sources "N") = bareOutcome (compileText ("\n".intercalate texts) "N") := by
  intro disk sources texts
  have hc : sources.map (Source.content disk) = texts.map .ok := rfl
  have hne : texts ≠ [] := by simp [texts]
  have ht : ∀ t ∈ texts, ∃ ts, Token.ofText t 0 = .ok ts := by
    have hok : ∀ t ∈ texts, (Token.ofText t 0).isOk = true := by decide +kernel
    exact fun t hmem => exists_of_isOk (hok t hmem)
  have h := compileSources_joined hc hne ht
  exact ⟨hc, hne, ht, h.1, h.2 "N"⟩

end SchemaLang
