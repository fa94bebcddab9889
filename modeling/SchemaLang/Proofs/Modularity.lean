import Mathlib.Data.List.Forall2
import SchemaLang.Proofs.Blindness
import SchemaLang.Proofs.Resolution
import SchemaLang.Proofs.Streams

/-!
# Sources by themselves and together

What a source defines by itself, and what it defines behind other sources.

* `Source.Gives` says which tokens and which definitions a source gives by itself, if there is nothing else in it.
* Derivations can be moved to another source (`Definition.Derivation.exists_relocated`). With more comments in front, a
  definition has other documentation at most (`Definition.Derivation.definition_preceded`).
* Sources are read from one stream of tokens, in which nothing says where a source ends. So a comment at the end of one
  comes to stand in front of the first definition behind it (`Definition.behind`). `Source.gather` are the definitions
  of sources one after the other, with that difference.
* Main result: `Schema.definitions_of_ofSources`.
-/

namespace SchemaLang

/-! ## The comment at the end -/

namespace Token

/-- The text of the comment at the end of a token list. It is empty if there is none. -/
def finalComment (ts : List Token) : String := ts.getLast?.elim "" fun t => if t.isComment then t.lexeme else ""

theorem finalComment_comments (cs : Comments) : finalComment cs.tokens = cs.documentation := by
  rw [finalComment, Comments.documentation]
  cases hc : cs.tokens.getLast? with
  | none => rfl
  | some c => rw [Option.elim_some, Option.elim_some, if_pos (cs.isComment c (List.mem_of_getLast? hc))]

/-- Comments at the end hide what is in front of them. -/
theorem finalComment_append_comments (ts : List Token) (cs : Comments) :
    finalComment (ts ++ cs.tokens) = if cs.tokens = [] then finalComment ts else cs.documentation := by
  split
  · rename_i h
    rw [h, List.append_nil]
  · rename_i h
    rw [← finalComment_comments, finalComment, finalComment, List.getLast?_append_of_ne_nil ts h]

theorem finalComment_append {ts us : List Token} (ht : finalComment ts = "") (hu : finalComment us = "") :
    finalComment (ts ++ us) = "" := by
  rw [finalComment, List.getLast?_append]
  cases h : us.getLast? with
  | none => exact ht
  | some u => simpa [finalComment, h] using hu

theorem finalComment_append_map_relocate (r : Relocation) (ts us : List Token) :
    finalComment (ts ++ us.map (relocate r)) = finalComment (ts ++ us) := by
  rw [finalComment, finalComment, List.getLast?_append, List.getLast?_append, List.getLast?_map]
  cases us.getLast? <;> rfl

/-- Whether tokens start with a comment does not depend on their places. -/
theorem any_isComment_head?_map_relocate (r : Relocation) (ts : List Token) :
    (ts.map (relocate r)).head?.any isComment = ts.head?.any isComment := by
  cases ts <;> rfl

theorem partwise_relocate (r : Relocation) : Partwise fun us ts => us = ts.map (relocate r) where
  nil h := h
  append h := ⟨_, _, h.trans List.map_append, rfl, rfl⟩

/-- The tokens of a text in another source. -/
theorem ofElements_relocate (file : Nat) : ∀ (p : Position) (es : List Element),
    ofElements file p es = (ofElements 0 p es).map (relocate (.toSource file))
  | _, [] => rfl
  | p, e :: es => by
    rw [ofElements, ofElements]
    cases e.token? with
    | none => exact ofElements_relocate file _ es
    | some t => exact congrArg _ (ofElements_relocate file _ es)

theorem ofText_relocate {text : String} {tokens : List Token} (h : ofText text 0 = .ok tokens) (file : Nat) :
    ofText text file = .ok (tokens.map (relocate (.toSource file))) := by
  obtain ⟨es, hes, rfl⟩ := ofText_eq_ok_iff.1 h
  exact ofText_eq_ok_iff.2 ⟨es, hes, ofElements_relocate file _ es⟩

end Token

theorem Comments.documentation_append (cs ds : Comments) :
    (cs.append ds).documentation = if ds.tokens = [] then cs.documentation else ds.documentation := by
  rw [← Token.finalComment_comments, ← Token.finalComment_comments cs]
  exact Token.finalComment_append_comments cs.tokens ds

/-- Comments at other places. -/
def Comments.relocate (r : Relocation) (cs : Comments) : Comments where
  tokens := cs.tokens.map (Token.relocate r)
  isComment c hc := by
    obtain ⟨d, hd, rfl⟩ := List.mem_map.1 hc
    exact cs.isComment d hd

/-! ## Derivations at other places and behind comments -/

namespace Definition.Derivation

open TokenReader

variable (d : Derivation)

/-- The tokens of a definition at other places are those of the definition at other places. -/
theorem exists_relocated (r : Relocation) :
    ∃ e : Derivation, e.tokens = d.tokens.map (Token.relocate r) ∧ e.definition = d.definition.relocate r := by
  have hread := mirrors_read? (r := r) (d.tokens ++ [])
  rw [read?_tokens] at hread
  obtain ⟨e, _, he, ht⟩ := exists_of_read? hread
  exact ⟨e, by simpa using ht.symm, he⟩

theorem exists_relocated_all (r : Relocation) (ds : List Derivation) : ∃ es : List Derivation,
    es.flatMap tokens = (ds.flatMap tokens).map (Token.relocate r) ∧
      es.map definition = ds.map fun d => d.definition.relocate r := by
  refine (Token.partwise_relocate r).exists_of_flatMap definition (fun d : Derivation => d.definition.relocate r) ?_ rfl
  rintro d - _ rfl
  exact d.exists_relocated r

/-- A definition with more comments in front. -/
def preceded (cs : Comments) : Derivation := { d with comments := cs.append d.comments }

theorem tokens_preceded (cs : Comments) : (d.preceded cs).tokens = cs.tokens ++ d.tokens := by
  simp only [tokens, preceded, Comments.append, List.append_assoc]
  rfl

/-- More comments in front are the documentation of a definition without its own. -/
theorem definition_preceded (cs : Comments) : (d.preceded cs).definition =
    if d.comments.tokens = [] then { d.definition with documentation := cs.documentation } else d.definition := by
  have hd := Comments.documentation_append cs d.comments
  split at hd
  · rename_i h
    rw [if_pos h, ← hd]
    rfl
  · rename_i h
    rw [if_neg h]
    simp only [definition, preceded, hd]

/-- The tokens of a definition start with a comment if it has comments. -/
theorem any_isComment_head?_tokens (rest : List Token) :
    (d.tokens ++ rest).head?.any Token.isComment = !d.comments.tokens.isEmpty := by
  obtain ⟨t, us, ht, hk⟩ := d.exists_cons rest
  have htokens : d.tokens ++ rest = d.comments.tokens ++ t :: us := by
    rw [← ht]
    simp [tokens]
  rw [htokens]
  cases hc : d.comments.tokens with
  | nil =>
    have htc : t.isComment = false := by
      simp only [Token.isComment, decide_eq_false_iff_not]
      intro he
      simp [he] at hk
    simp [htc]
  | cons c cs =>
    simp [d.comments.isComment c (by simp [hc])]

/-- A definition ends with its closing brace. -/
theorem getLast?_tokens (ts : List Token) : (ts ++ d.tokens).getLast? = some d.closing.token := by
  have h : ts ++ d.tokens = ts ++ d.comments.tokens ++ d.remarks.flatMap Attribute.Derivation.tokens ++
      d.modifierTokens ++ d.word.token :: (d.name.tokens ++ d.opening.tokens ++
        d.fields.flatMap Field.Derivation.tokens) ++ d.closing.tokens := by
    simp [tokens, core]
  rw [h, Commented.getLast?_tokens]

/-- No comment stands at the end of a definition. -/
theorem finalComment_append_tokens (ts : List Token) : Token.finalComment (ts ++ d.tokens) = "" := by
  rw [Token.finalComment, getLast?_tokens, Option.elim_some, d.closing.isComment_eq_false (by decide)]
  rfl

theorem finalComment_append_flatMap (ts : List Token) (ds : List Derivation) :
    Token.finalComment (ts ++ (d :: ds).flatMap tokens) = "" := by
  induction ds generalizing ts d with
  | nil => simpa using d.finalComment_append_tokens ts
  | cons e ds ih => simpa using ih e (ts ++ d.tokens)

/-- Only a comment behind all definitions is at the end. -/
theorem finalComment_append_definitions (ts : List Token) (ds : List Derivation) (trailing : Comments) :
    Token.finalComment (ts ++ ((d :: ds).flatMap tokens ++ trailing.tokens)) = trailing.documentation := by
  rw [← List.append_assoc, Token.finalComment_append_comments, d.finalComment_append_flatMap]
  split
  · rename_i h
    rw [← Token.finalComment_comments, h]
    rfl
  · rfl

end Definition.Derivation

/-! ## Sources by themselves -/

/-- Definitions behind other tokens. If there is no comment in front of the first, the comment at the end of the tokens
before becomes its documentation. -/
def Definition.behind (before tokens : List Token) : List Definition → List Definition
  | [] => []
  | d :: ds =>
    (if tokens.head?.any Token.isComment then d else { d with documentation := Token.finalComment before }) :: ds

namespace Source

/-- The tokens of a source and the definitions that they are. -/
structure Part where
  tokens : List Token
  definitions : List Definition

/-- The definitions of a part in the source with a number. -/
def Part.definitionsAt (part : Part) (file : Nat) : List Definition :=
  part.definitions.map (Definition.relocate (.toSource file))

/-- The definitions of the parts from a number on, one after the other, behind the tokens before. -/
def gather (before : List Token) (file : Nat) : List Part → List Definition
  | [] => []
  | part :: parts => Definition.behind before part.tokens (part.definitionsAt file) ++
      gather (before ++ part.tokens) (file + 1) parts

/-- A source that by itself is a sequence of definitions: it has the tokens of the part, and what is read from them, up
to the end of the file, are the definitions of the part. -/
def Gives (disk : Disk) (source : Source) (part : Part) : Prop :=
  ∃ finish, stream disk [source] = .ok (part.tokens ++ [Token.endOfFile finish]) ∧
    (Progress.ofTokens (part.tokens ++ [Token.endOfFile finish])).problem = none ∧
      (Progress.ofTokens (part.tokens ++ [Token.endOfFile finish])).definitions = part.definitions

namespace Gives

variable {disk : Disk} {source : Source} {part : Part}

/-- A source that gives definitions consists of derivations of them and comments behind them. -/
theorem exists_derivations (h : Gives disk source part) :
    ∃ (text : String) (ds : List Definition.Derivation) (trailing : Comments), source.content disk = .ok text ∧
      Token.ofText text 0 = .ok part.tokens ∧
        part.tokens = ds.flatMap Definition.Derivation.tokens ++ trailing.tokens ∧
          part.definitions = ds.map Definition.Derivation.definition := by
  obtain ⟨finish, hstream, hproblem, hdefinitions⟩ := h
  obtain ⟨text, tokens, following, hc, ht, hf, heq⟩ := exists_of_streamFrom_cons hstream
  obtain rfl := Except.ok.inj hf
  obtain ⟨htokens, _⟩ := List.append_inj' heq rfl
  cases hread : Progress.ofTokens (part.tokens ++ [Token.endOfFile finish]) with
  | mk after rest problem =>
    rw [hread] at hproblem hdefinitions
    obtain rfl : problem = none := hproblem
    obtain ⟨ds, trailing, e, us, hd, _, hderived⟩ := Progress.exists_of_upTo hread (by simp)
    refine ⟨text, ds, trailing, hc, htokens ▸ ht, ?_, hdefinitions.symm.trans hd⟩
    have hbefore : Token.beforeEnd (part.tokens ++ [Token.endOfFile finish]) = part.tokens :=
      Token.beforeEnd_append (fun _ hmem => Token.kind_ne_of_ofText ht (htokens ▸ hmem)) rfl
    rw [← hbefore, hderived, Token.beforeEnd_append (fun _ => Definition.kind_ne_of_mem_append) e.kind_eq]

/-- The same in the source with another number. -/
theorem exists_derivations_at (h : Gives disk source part) (file : Nat) :
    ∃ (text : String) (ds : List Definition.Derivation) (trailing : Comments), source.content disk = .ok text ∧
      Token.ofText text file = .ok (part.tokens.map (Token.relocate (.toSource file))) ∧
        part.tokens.map (Token.relocate (.toSource file)) =
          ds.flatMap Definition.Derivation.tokens ++ trailing.tokens ∧
            part.definitionsAt file = ds.map Definition.Derivation.definition := by
  obtain ⟨text, ds, trailing, hc, ht, htokens, hd⟩ := h.exists_derivations
  obtain ⟨es, hest, hesd⟩ := Definition.Derivation.exists_relocated_all (.toSource file) ds
  refine ⟨text, es, trailing.relocate (.toSource file), hc, Token.ofText_relocate ht file, ?_, ?_⟩
  · rw [htokens, List.map_append, hest]
    rfl
  · rw [Part.definitionsAt, hd, List.map_map, hesd]
    rfl

end Gives

/-! ## Sources one after the other -/

/-- The first definition of a source takes over the comments that are carried to it. -/
theorem behind_eq {before tokens rest : List Token} {file : Nat} {carried : Comments} {d : Definition.Derivation}
    (ht : tokens.map (Token.relocate (.toSource file)) = d.tokens ++ rest)
    (hc : Token.finalComment before = carried.documentation) (ds : List Definition) :
    Definition.behind before tokens (d.definition :: ds) = (d.preceded carried).definition :: ds := by
  have hhead := Token.any_isComment_head?_map_relocate (.toSource file) tokens
  rw [ht, d.any_isComment_head?_tokens] at hhead
  rw [Definition.behind, d.definition_preceded, ← hhead, hc]
  cases d.comments.tokens <;> rfl

/-- The tokens of sources, behind comments that are carried to them, derive the gathered definitions. -/
theorem exists_gathered {disk : Disk} {sources : List Source} {parts : List Part}
    (h : List.Forall₂ (Gives disk) sources parts) : ∀ {file : Nat} {finish : Span} {before ts : List Token}
    (carried : Comments), streamFrom disk file finish sources = .ok ts →
      Token.finalComment before = carried.documentation → ∃ (ds : List Definition.Derivation) (trailing : Comments)
        (e : TokenOf .endOfFile), carried.tokens ++ ts =
          ds.flatMap Definition.Derivation.tokens ++ trailing.tokens ++ [e.token] ∧
            ds.map Definition.Derivation.definition = gather before file parts := by
  induction h with
  | nil =>
    intro file finish before ts carried hs _
    obtain rfl := Except.ok.inj hs
    exact ⟨[], carried, ⟨Token.endOfFile finish, rfl⟩, rfl, rfl⟩
  | @cons source part sources parts hpart _ ih =>
    intro file finish before ts carried hs hc
    obtain ⟨text, ds, trailing, hcontent, htext, htokens, hd⟩ := hpart.exists_derivations_at file
    rw [streamFrom_cons hcontent htext] at hs
    obtain ⟨following, hf, rfl⟩ := exists_of_map_eq_ok hs
    have hfinal := Token.finalComment_append_map_relocate (.toSource file) before part.tokens
    rw [htokens] at hfinal ⊢
    rw [gather, hd]
    cases ds with
    | nil =>
      -- there is nothing to take the comments, so they are carried on with those of this source
      have hcarried : Token.finalComment (before ++ part.tokens) = (carried.append trailing).documentation := by
        rw [← hfinal, Comments.documentation_append, ← hc]
        exact Token.finalComment_append_comments before trailing
      obtain ⟨es, last, e, hts, hes⟩ := ih (carried.append trailing) hf hcarried
      exact ⟨es, last, e, by simpa [Comments.append] using hts, hes⟩
    | cons d ds =>
      -- the first definition takes them, and those of this source are carried on
      have hcarried := d.finalComment_append_definitions before ds trailing
      obtain ⟨es, last, e, hts, hes⟩ := ih trailing hf (hfinal.symm.trans hcarried)
      refine ⟨d.preceded carried :: ds ++ es, last, e, ?_, ?_⟩
      · simp only [List.append_assoc] at hts
        simp [Definition.Derivation.tokens_preceded, hts]
      · rw [List.map_cons, behind_eq (by simpa using htokens) hc]
        simp [hes]

/-- Without a comment in front, a source has its own definitions. -/
theorem Gives.behind_definitionsAt {disk : Disk} {source : Source} {part : Part} (h : Gives disk source part)
    {before : List Token} (hb : Token.finalComment before = "") (file : Nat) :
    Definition.behind before part.tokens (part.definitionsAt file) = part.definitionsAt file := by
  obtain ⟨_, ds, trailing, _, _, htokens, hd⟩ := h.exists_derivations_at file
  have hnone : Token.finalComment before = Comments.none.documentation := hb
  rw [hd]
  cases ds with
  | nil => rfl
  | cons d ds =>
    rw [List.map_cons, behind_eq (by simpa using htokens) hnone]
    rfl

/-- Where no source but the last ends with a comment, all have their own definitions. -/
theorem gather_eq_flatMap {disk : Disk} {sources : List Source} {parts : List Part}
    (h : List.Forall₂ (Gives disk) sources parts) : ∀ {file : Nat} {before : List Token},
      Token.finalComment before = "" → (∀ part ∈ parts.dropLast, Token.finalComment part.tokens = "") →
        gather before file parts = (parts.zipIdx file).flatMap fun p => p.1.definitionsAt p.2 := by
  induction h with
  | nil => exact fun _ _ => rfl
  | @cons source part sources parts hpart hrest ih =>
    intro file before hb hparts
    rw [gather, hpart.behind_definitionsAt hb, List.zipIdx_cons, List.flatMap_cons]
    congr 1
    cases hrest with
    | nil => rfl
    | cons =>
      have htokens := hparts part (by simp)
      exact ih (Token.finalComment_append hb htokens) fun p hp => hparts p (by simp [hp])

end Source

/-! ## Sources together -/

namespace Schema

/-- Sources are read together as each by itself, if each is a sequence of definitions. Their definitions come one after
the other, with the numbers of the sources in their spans, and a comment at the end of a source is the documentation of
the next definition, unless there is another comment between them. If no source but the last ends with a comment, the
definitions are those of the sources by themselves. -/
theorem definitions_of_ofSources {disk : Disk} {sources : List Source} {parts : List Source.Part}
    (hp : List.Forall₂ (Source.Gives disk) sources parts) {ns : String} {s : Schema}
    (h : ofSources disk sources ns = .ok s) :
    s.definitions = Source.gather [] 0 parts ∧
      ((∀ part ∈ parts.dropLast, Token.finalComment part.tokens = "") →
        s.definitions = parts.zipIdx.flatMap fun p => p.1.definitionsAt p.2) := by
  have hgather : s.definitions = Source.gather [] 0 parts := by
    have hempty : Token.finalComment [] = Comments.none.documentation := rfl
    rw [ofSources] at h
    obtain ⟨ts, hs, hread⟩ := exists_of_bind_eq_ok h
    obtain ⟨ds, trailing, e, hts, hd⟩ := Source.exists_gathered hp Comments.none hs hempty
    have hbefore : Token.beforeEnd ts = ds.flatMap Definition.Derivation.tokens ++ trailing.tokens := by
      have hts : ts = ds.flatMap Definition.Derivation.tokens ++ trailing.tokens ++ [e.token] := hts
      rw [hts]
      exact Token.beforeEnd_append (fun _ => Definition.kind_ne_of_mem_append) e.kind_eq
    obtain ⟨_, _, rfl⟩ := (ofTokens_eq_ok_iff_of_definitions hbefore).1 hread
    exact hd
  exact ⟨hgather, fun hparts => hgather.trans (Source.gather_eq_flatMap hp rfl hparts)⟩

/-- A comment at the end of the first of two files becomes the documentation of the struct in the second. -/
theorem not_concat_of_final_comment :
    let first := "struct A \x7b \x7d /* end */"
    let second := "struct B \x7b \x7d"
    let disk : Disk := fun path => if path = "a" then .ok first else .ok second
    let part (text name : String) : Source.Part := ⟨Token.ofElements 0 Position.start (Element.split text.toList).1,
      [⟨name, .struct, false, ⟨0, ⟨7, 1, 8⟩, ⟨12, 1, 13⟩⟩, "", [], []⟩]⟩
    let parts := [part first "A", part second "B"]
    List.Forall₂ (Source.Gives disk) [.file "a", .file "b"] parts ∧
      ∃ s, ofSources disk [.file "a", .file "b"] "N" = .ok s ∧
        s.definitions ≠ parts.zipIdx.flatMap fun p => p.1.definitionsAt p.2 := by
  intro first second disk part parts
  have ha : Source.Gives disk (.file "a") (part first "A") :=
    ⟨⟨0, ⟨22, 1, 23⟩, ⟨22, 1, 23⟩⟩, by decide +kernel⟩
  have hb : Source.Gives disk (.file "b") (part second "B") :=
    ⟨⟨0, ⟨12, 1, 13⟩, ⟨12, 1, 13⟩⟩, by decide +kernel⟩
  refine ⟨.cons ha (.cons hb .nil), ⟨"N", [⟨"A", .struct, false, ⟨0, ⟨7, 1, 8⟩, ⟨12, 1, 13⟩⟩, "", [], []⟩,
    ⟨"B", .struct, false, ⟨1, ⟨7, 1, 8⟩, ⟨12, 1, 13⟩⟩, "end", [], []⟩]⟩, ?_, ?_⟩
  · decide +kernel
  · decide +kernel

/-- A file with a comment only stands between a struct with a comment behind it and the enum that it documents. -/
theorem definitions_of_ofSources_comments :
    let part (text : String) (ds : List Definition) : Source.Part :=
      ⟨Token.ofElements 0 Position.start (Element.split text.toList).1, ds⟩
    let first := "struct A \x7b \x7d /* end */"
    let second := "/* only */"
    let third := "enum C \x7b \x7d"
    let disk : Disk := fun path => if path = "a" then .ok first else if path = "b" then .ok second else .ok third
    let sources : List Source := [.file "a", .file "b", .file "c"]
    let a : Definition := ⟨"A", .struct, false, ⟨0, ⟨7, 1, 8⟩, ⟨12, 1, 13⟩⟩, "", [], []⟩
    let c : Definition := ⟨"C", .enum, false, ⟨0, ⟨5, 1, 6⟩, ⟨10, 1, 11⟩⟩, "", [], []⟩
    let parts := [part first [a], part second [], part third [c]]
    let s : Schema := ⟨"N", [a, { c with span := { c.span with file := 2 }, documentation := "only" }]⟩
    List.Forall₂ (Source.Gives disk) sources parts ∧ ofSources disk sources "N" = .ok s ∧
      s.definitions = Source.gather [] 0 parts := by
  intro part first second third disk sources a c parts s
  have ha : Source.Gives disk (.file "a") (part first [a]) :=
    ⟨⟨0, ⟨22, 1, 23⟩, ⟨22, 1, 23⟩⟩, by decide +kernel⟩
  have hb : Source.Gives disk (.file "b") (part second []) :=
    ⟨⟨0, ⟨10, 1, 11⟩, ⟨10, 1, 11⟩⟩, by decide +kernel⟩
  have hc : Source.Gives disk (.file "c") (part third [c]) :=
    ⟨⟨0, ⟨10, 1, 11⟩, ⟨10, 1, 11⟩⟩, by decide +kernel⟩
  have hp : List.Forall₂ (Source.Gives disk) sources parts := .cons ha (.cons hb (.cons hc .nil))
  have h : ofSources disk sources "N" = .ok s := by decide +kernel
  exact ⟨hp, h, (definitions_of_ofSources hp h).1⟩

end Schema

end SchemaLang
