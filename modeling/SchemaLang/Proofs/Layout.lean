import SchemaLang.Proofs.Blindness
import SchemaLang.Proofs.Streams

/-!
# Layout

What a schema says does not depend on the places of its tokens, nor on the white space and the line comments between
them.

* `Schema.SameOutcome` is for two outcomes that differ in places only: two schemas, or two problems with one cause.
* `Element.SameWords` is for two texts that differ in layout only. Elements that are layout can be put in or taken out
  (`Element.sameWords_of_filter`).
* Main result: `Schema.ofTokens_blind`.
-/

namespace SchemaLang

/-! ## Outcomes -/

namespace Schema

/-- Two outcomes that are the same apart from places. -/
inductive SameOutcome : Except Diagnostic Schema → Except Diagnostic Schema → Prop where
  | ok {s t : Schema} (schemas : s.bare = t.bare) : SameOutcome (.ok s) (.ok t)
  | error {p q : Diagnostic} (problems : p.bare = q.bare) : SameOutcome (.error p) (.error q)

theorem sameOutcome_iff {r r' : Except Diagnostic Schema} : SameOutcome r r' ↔ bareOutcome r = bareOutcome r' := by
  constructor
  · rintro (h | h)
    · exact congrArg Except.ok h
    · exact congrArg Except.error h
  · intro h
    cases r with
    | ok s =>
      cases r' with
      | ok t => exact .ok (Except.ok.inj h)
      | error q => cases h
    | error p =>
      cases r' with
      | ok t => cases h
      | error q => exact .error (Except.error.inj h)

/-- Tokens that say the same have the same outcome. -/
theorem sameOutcome_of_map_content {ts us : List Token} (h : ts.map Token.content = us.map Token.content)
    (ns : String) : SameOutcome (ofTokens ts ns) (ofTokens us ns) := by
  rw [sameOutcome_iff, ← ofTokens_map_bare, ← ofTokens_map_bare, Token.map_bare_congr h]

end Schema

/-! ## Texts -/

deriving instance DecidableEq for Element

namespace Element

/-- Two texts that are cut into elements with the same contents, as far as they can be cut. Layout has no content, and
the white space at the ends of a comment is no part of what it says. -/
def SameWords (s t : List Char) : Prop :=
  (split s).1.filterMap content? = (split t).1.filterMap content? ∧ (split s).2 = (split t).2

/-- Layout does not count among the contents of elements. -/
theorem filterMap_content?_filter (es : List Element) :
    (es.filter fun e => !e.isLayout).filterMap content? = es.filterMap content? := by
  rw [List.filterMap_filter]
  congr 1
  funext e
  cases h : e.isLayout with
  | false => simp
  | true => simp [content?_of_isLayout h]

/-- Texts with the same elements apart from layout have the same words. -/
theorem sameWords_of_filter {s t : List Char}
    (h : (split s).1.filter (fun e => !e.isLayout) = (split t).1.filter fun e => !e.isLayout)
    (hstuck : (split s).2 = (split t).2) : SameWords s t := by
  refine ⟨?_, hstuck⟩
  rw [← filterMap_content?_filter, h, filterMap_content?_filter]

end Element

namespace Token

variable {s t : String}

/-- Of texts with the same words, one is cut into tokens if the other is, and the tokens say the same. -/
theorem exists_ofText_of_sameWords (h : Element.SameWords s.toList t.toList) {file : Nat} {ts : List Token}
    (hs : ofText s file = .ok ts) : ∃ us, ofText t file = .ok us ∧ ts.map content = us.map content := by
  obtain ⟨es, hes, rfl⟩ := ofText_eq_ok_iff.1 hs
  obtain ⟨hcontent, hstuck⟩ := h
  rw [hes] at hcontent hstuck
  cases ht : Element.split t.toList with
  | mk fs stuck =>
    rw [ht] at hcontent hstuck
    obtain rfl : [] = stuck := hstuck
    refine ⟨_, ofText_eq_ok_iff.2 ⟨fs, ht, rfl⟩, ?_⟩
    rw [content_ofElements, content_ofElements]
    exact hcontent

/-- Otherwise both stop at the same text. -/
theorem exists_ofText_error_of_sameWords (h : Element.SameWords s.toList t.toList) {file : Nat} {p : Diagnostic}
    (hs : ofText s file = .error p) : ∃ q, ofText t file = .error q ∧ p.bare = q.bare := by
  obtain ⟨_, hstuck⟩ := h
  rw [ofText_eq] at hs
  split at hs
  · cases hs
  · rename_i es stuck hne hsplit
    obtain rfl := Except.error.inj hs
    rw [hsplit] at hstuck
    rw [ofText_eq]
    split
    · rename_i fs ht
      rw [ht] at hstuck
      exact absurd hstuck hne
    · rename_i fs stuck' _ ht
      rw [ht] at hstuck
      obtain rfl : stuck = stuck' := hstuck
      exact ⟨_, rfl, rfl⟩

end Token

/-! ## Both -/

namespace Schema

theorem sameOutcome_of_sameWords {s t : String} (h : Element.SameWords s.toList t.toList) (ns : String) :
    SameOutcome (ofText s ns) (ofText t ns) := by
  cases hs : Token.ofText s 0 with
  | ok ts =>
    obtain ⟨us, ht, hc⟩ := Token.exists_ofText_of_sameWords h hs
    rw [ofText_eq hs, ofText_eq ht]
    refine sameOutcome_of_map_content ?_ ns
    rw [List.map_append, List.map_append, hc]
    rfl
  | error p =>
    obtain ⟨q, ht, hp⟩ := Token.exists_ofText_error_of_sameWords h hs
    rw [ofText_error hs, ofText_error ht]
    exact .error hp

/-- Reading is blind to places. Tokens of the same kinds and lexemes, whatever their places, give schemas that are the
same apart from places or problems that are the same apart from places, and so do texts that differ in layout only. -/
theorem ofTokens_blind (ns : String) :
    (∀ ts us : List Token, ts.map Token.content = us.map Token.content →
      SameOutcome (ofTokens ts ns) (ofTokens us ns)) ∧
    ∀ s t : String, Element.SameWords s.toList t.toList → SameOutcome (ofText s ns) (ofText t ns) :=
  ⟨fun _ _ h => sameOutcome_of_map_content h ns, fun _ _ h => sameOutcome_of_sameWords h ns⟩

/-- Two words in different files, at which reading fails, and a struct on one line and on three. -/
theorem ofTokens_blind_lines :
    let here := Span.point 0 Position.start
    let there := Span.point 3 ⟨7, 2, 4⟩
    let s := "struct A \x7b A[] x; \x7d"
    let t := "struct A // next\n\x7b\n  A[ ]x; \x7d\n"
    SameOutcome (ofTokens [⟨.struct, "struct", here⟩, ⟨.map, "map", here⟩] "N")
        (ofTokens [⟨.struct, "struct", there⟩, ⟨.map, "map", here⟩] "N") ∧
      SameOutcome (ofText s "N") (ofText t "N") := by
  intro here there s t
  have hw : Element.SameWords s.toList t.toList :=
    Element.sameWords_of_filter (by decide +kernel) (by decide +kernel)
  exact ⟨(ofTokens_blind "N").1 _ _ rfl, (ofTokens_blind "N").2 s t hw⟩

end Schema

end SchemaLang
