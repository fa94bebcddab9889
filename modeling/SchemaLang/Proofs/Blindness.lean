import SchemaLang.Proofs.Places
import SchemaLang.Schema.Reader

/-!
# Reading is blind to places

Changing the places of tokens changes the places of whatever is read from the tokens, and has no other effect.

* `TokenReader.Mirrors r g read' read`: on tokens at the other places that `r` gives them, `read'` does what `read` does
  on the tokens. Both give values, which correspond by `g`, or both fail with the same problem, up to the change of
  places. Every combinator keeps it (`Mirrors.bind`, `Mirrors.many`, ...), and every reader of the grammar mirrors
  itself.
* Main results: `Schema.ofTokens_map_bare` and `Schema.compile_map_bare`, for taking all places away. So tokens of the
  same kinds and lexemes have the same outcome apart from places (`Schema.bareOutcome_compile_congr`).
-/

namespace SchemaLang

namespace Reading

variable {α β : Type}

/-- A reading at other places, with another value. -/
def relocate (r : Relocation) (g : α → β) : Reading α → Reading β
  | done a rest => done (g a) (rest.map (Token.relocate r))
  | failed problem rest => failed (problem.relocate r) (rest.map (Token.relocate r))

end Reading

namespace TokenReader

variable {α α' β β' : Type} {r : Relocation}

/-! ## Readers at other places -/

/-- A reader that does, on tokens at other places, what another one does on the tokens. -/
def Mirrors (r : Relocation) (g : α → β) (read' : TokenReader β) (read : TokenReader α) : Prop :=
  ∀ ts, read' (ts.map (Token.relocate r)) = (read ts).relocate r g

theorem Mirrors.bind {g : α → α'} {k : β → β'} {read' : TokenReader α'} {read : TokenReader α}
    {next' : α' → TokenReader β'} {next : α → TokenReader β} (hr : Mirrors r g read' read)
    (hn : ∀ a, Mirrors r k (next' (g a)) (next a)) : Mirrors r k (read' >>= next') (read >>= next) := by
  intro ts
  rw [bind_apply, bind_apply, hr ts]
  cases read ts with
  | failed problem rest => rfl
  | done a rest => exact hn a rest

theorem Mirrors.pure {g : α → β} {b : β} {a : α} (h : b = g a) : Mirrors r g (pure b) (pure a) := by
  intro ts
  rw [h]
  rfl

theorem Mirrors.fail {g : α → β} {problem' problem : Diagnostic} (h : problem' = problem.relocate r) :
    Mirrors r g (fail problem') (fail problem) := by
  intro ts
  rw [h]
  rfl

theorem Mirrors.current : Mirrors r (Token.relocate r) current current
  | [] => rfl
  | _ :: _ => rfl

theorem Mirrors.advance : Mirrors r id advance advance
  | [] => rfl
  | _ :: _ => rfl

theorem Mirrors.eat? (kind : TokenKind) : Mirrors r (Option.map (Token.relocate r)) (eat? kind) (eat? kind)
  | [] => rfl
  | t :: ts => by
    have hk : (t.relocate r).kind = t.kind := rfl
    rw [List.map_cons, TokenReader.eat?, TokenReader.eat?, hk]
    split <;> rfl

theorem Mirrors.take (kinds : List TokenKind) (hint : Option String) :
    Mirrors r (Token.relocate r) (take kinds hint) (take kinds hint)
  | [] => rfl
  | t :: ts => by
    have hk : (t.relocate r).kind = t.kind := rfl
    rw [List.map_cons, TokenReader.take, TokenReader.take, hk]
    split <;> rfl

theorem isComment_comp_relocate : Token.isComment ∘ Token.relocate r = Token.isComment := rfl

theorem Mirrors.skipComments : Mirrors r id skipComments skipComments := by
  intro ts
  rw [TokenReader.skipComments, List.dropWhile_map, isComment_comp_relocate]
  rfl

theorem Mirrors.lastComment : Mirrors r id lastComment lastComment := by
  intro ts
  rw [TokenReader.lastComment, List.dropWhile_map, List.takeWhile_map, isComment_comp_relocate, List.getLast?_map]
  cases h : (ts.takeWhile Token.isComment).getLast? with
  | none => simp [TokenReader.lastComment, Reading.relocate, h]
  | some t => simp [TokenReader.lastComment, Reading.relocate, h, Token.relocate]

theorem Mirrors.expect (kind : TokenKind) (hint : Option String) :
    Mirrors r (Token.relocate r) (expect kind hint) (expect kind hint) :=
  .bind .skipComments fun _ => .take [kind] hint

theorem Mirrors.manyUpTo {g : α → β} {item' : TokenReader (Option β)} {item : TokenReader (Option α)}
    (h : Mirrors r (Option.map g) item' item) : ∀ n : Nat, Mirrors r (List.map g) (manyUpTo item' n) (manyUpTo item n)
  | 0 => .fail rfl
  | n + 1 => h.bind fun a => by
    cases a with
    | none => exact .pure rfl
    | some a => exact .bind (Mirrors.manyUpTo h n) fun as => .pure rfl

theorem Mirrors.many {g : α → β} {item' : TokenReader (Option β)} {item : TokenReader (Option α)}
    (h : Mirrors r (Option.map g) item' item) : Mirrors r (List.map g) (many item') (many item) := by
  intro ts
  rw [many_apply, many_apply, List.length_map]
  exact Mirrors.manyUpTo h _ ts

end TokenReader

open TokenReader

variable {r : Relocation}

/-! ## Types -/

namespace FieldType

theorem ofName_relocate (name : Token) : ofName (name.relocate r) = (ofName name).relocate r := by
  simp only [ofName, Token.relocate]
  cases Scalar.ofName? name.lexeme <;> rfl

theorem withSuffixes_relocate (t : FieldType) (closings : List Span) :
    (t.relocate r).withSuffixes (closings.map r.move) = (t.withSuffixes closings).relocate r := by
  induction closings generalizing t with
  | nil => rfl
  | cons closing closings ih =>
    simp only [withSuffixes, List.map_cons, List.foldl_cons] at ih ⊢
    rw [span_relocate, ← r.move_combine, arrayOf_relocate, ih]

theorem mirrors_readSuffix? : Mirrors r (Option.map r.move) readSuffix? readSuffix? :=
  .bind (.eat? _) fun o => by
    cases o with
    | none => exact .pure rfl
    | some t => exact .bind (.expect _ _) fun _ => .pure rfl

section Inner

variable {inner : TokenReader FieldType}

theorem mirrors_readMap (h : Mirrors r (relocate r) inner inner) (word : Token) :
    Mirrors r (relocate r) (readMap inner (word.relocate r)) (readMap inner word) :=
  .bind (.expect _ _) fun _ => .bind h fun key => by
    rw [isScalar_relocate]
    split
    · refine .bind (.expect _ _) fun _ => .bind h fun value => .bind (.expect _ _) fun closing => .pure ?_
      rw [relocate, r.move_combine]
      rfl
    · exact .fail rfl

theorem mirrors_readArray (h : Mirrors r (relocate r) inner inner) (word : Token) :
    Mirrors r (relocate r) (readArray inner (word.relocate r)) (readArray inner word) :=
  .bind (.expect _ _) fun _ => .bind h fun element => .bind (.expect _ _) fun closing => .pure <| by
    rw [← arrayOf_relocate, r.move_combine]
    rfl

theorem mirrors_readBase (h : Mirrors r (relocate r) inner inner) :
    Mirrors r (relocate r) (readBase inner) (readBase inner) :=
  .bind (.eat? _) fun m => by
    cases m with
    | some word => exact mirrors_readMap h word
    | none =>
      refine .bind (.eat? _) fun a => ?_
      cases a with
      | some word => exact mirrors_readArray h word
      | none => exact .bind (.expect _ _) fun name => .pure (ofName_relocate name)

end Inner

theorem mirrors_readUpTo : ∀ depth : Nat, Mirrors r (relocate r) (readUpTo depth) (readUpTo depth)
  | 0 => .fail rfl
  | depth + 1 => .bind .skipComments fun _ => .bind (mirrors_readBase (mirrors_readUpTo depth)) fun base =>
      .bind (.many mirrors_readSuffix?) fun closings => .pure (withSuffixes_relocate base closings)

theorem mirrors_read : Mirrors r (relocate r) read read := by
  intro ts
  rw [read_apply, read_apply, List.length_map]
  exact mirrors_readUpTo _ ts

end FieldType

/-! ## Attributes -/

namespace Attribute

theorem mirrors_readArgument (keyword : String) : Mirrors r id (readArgument keyword) (readArgument keyword) :=
  .bind (.eat? _) fun o => by
    cases o with
    | none => exact .pure rfl
    | some t => exact .bind (.take _ _) fun _ => .bind (.expect _ _) fun _ => .pure rfl

theorem mirrors_read? : Mirrors r id read? read? :=
  .bind (.eat? _) fun o => by
    cases o with
    | none => exact .pure rfl
    | some t =>
      refine .bind (.expect _ _) fun name => .bind (mirrors_readArgument _) fun value => .bind (.expect _ _) fun _ => ?_
      have hl : (name.relocate r).lexeme = name.lexeme := rfl
      rw [hl]
      cases ofKeyword? name.lexeme value.1 value.2 with
      | none => exact .fail rfl
      | some a => exact .pure rfl

end Attribute

/-! ## Fields -/

namespace Field

theorem mirrors_readInteger (hint : String) : Mirrors r id (readInteger hint) (readInteger hint) :=
  .bind (.expect _ _) fun number => by
    have hl : (number.relocate r).lexeme = number.lexeme := rfl
    rw [hl]
    cases Text.signed32? number.lexeme.toList with
    | none => exact .fail rfl
    | some n => exact .pure rfl

theorem mirrors_readIndex (kind : DefinitionKind) : Mirrors r id (readIndex kind) (readIndex kind) := by
  cases kind with
  | enum | struct => exact .pure rfl
  | message =>
    exact .bind (mirrors_readInteger _) fun _ => .bind (.expect _ _) fun _ => .bind (.expect _ _) fun _ => .pure rfl

theorem mirrors_readType (owner : Token) (kind : DefinitionKind) :
    Mirrors r (FieldType.relocate r) (readType (owner.relocate r) kind) (readType owner kind) := by
  cases kind with
  | enum => exact .pure rfl
  | struct | message => exact FieldType.mirrors_read

theorem mirrors_readName : Mirrors r (Token.relocate r) readName readName :=
  .bind .skipComments fun _ => .bind .current fun candidate => by
    have hr : isReserved (candidate.relocate r) = isReserved candidate := rfl
    rw [hr]
    split
    · exact .fail rfl
    · exact .expect _ _

theorem mirrors_readConstant (index : Int) (kind : DefinitionKind) :
    Mirrors r id (readConstant index kind) (readConstant index kind) := by
  cases kind with
  | enum => exact .bind (.expect _ _) fun _ => mirrors_readInteger _
  | struct | message => exact .pure rfl

theorem mirrors_read (kind : DefinitionKind) (owner : Token) (documentation : String) :
    Mirrors r (relocate r) (read kind (owner.relocate r) documentation) (read kind owner documentation) :=
  .bind Attribute.mirrors_read? fun _ => .bind (mirrors_readIndex kind) fun index =>
    .bind (mirrors_readType owner kind) fun _ => .bind mirrors_readName fun name =>
      .bind (mirrors_readConstant index kind) fun _ => .bind (.expect _ _) fun closing => .pure <| by
        rw [relocate, r.move_combine]
        rfl

theorem mirrors_read? (kind : DefinitionKind) (owner : Token) :
    Mirrors r (Option.map (relocate r)) (read? kind (owner.relocate r)) (read? kind owner) :=
  .bind .lastComment fun documentation => .bind .current fun t => by
    have hk : (t.relocate r).kind = t.kind := rfl
    rw [hk]
    split
    · exact .pure rfl
    · exact .bind (mirrors_read kind owner documentation) fun _ => .pure rfl

end Field

/-! ## Definitions -/

theorem DefinitionKind.mirrors_read : Mirrors r id read read :=
  .bind .current fun word => by
    have hk : (word.relocate r).kind = word.kind := rfl
    rw [hk]
    cases ofKeyword? word.kind with
    | none => exact .fail rfl
    | some kind => exact .bind .advance fun _ => .pure rfl

theorem Definition.mirrors_read? : Mirrors r (Option.map (Prod.map (Token.relocate r) (relocate r))) read? read? := by
  have hattribute : Mirrors r (Option.map id) Attribute.read? Attribute.read? := by
    rw [Option.map_id]
    exact Attribute.mirrors_read?
  refine .bind .lastComment fun documentation => .bind .current fun t => ?_
  have hk : (t.relocate r).kind = t.kind := rfl
  rw [hk]
  split
  · exact .pure rfl
  · refine .bind (.many hattribute) fun attributes => .bind (.eat? _) fun modifier =>
      .bind DefinitionKind.mirrors_read fun kind => .bind (.expect _ _) fun name => .bind (.expect _ _) fun _ =>
        .bind (.many (Field.mirrors_read? kind name)) fun fields => .bind (.expect _ _) fun closing => .pure ?_
    rw [List.map_id, Option.isSome_map, Option.map_some, Prod.map_apply, relocate, r.move_combine]
    rfl

/-! ## Reading without places -/

/-- A reading without places, with another value. -/
def Reading.bare {α β : Type} (g : α → β) : Reading α → Reading β
  | done a rest => done (g a) (rest.map Token.bare)
  | failed problem rest => failed problem.bare (rest.map Token.bare)

theorem TokenReader.Mirrors.map_bare {α : Type} {g : α → α} {read : TokenReader α} (h : Mirrors .forget g read read)
    (ts : List Token) : read (ts.map Token.bare) = (read ts).bare g := by
  have ht := h ts
  rw [funext Token.relocate_forget] at ht
  rw [ht]
  cases read ts with
  | done a rest => rfl
  | failed problem rest => rw [Reading.relocate, Diagnostic.relocate_forget, funext Token.relocate_forget, Reading.bare]

theorem FieldType.read_map_bare (ts : List Token) : read (ts.map Token.bare) = (read ts).bare bare := by
  rw [← funext relocate_forget]
  exact mirrors_read.map_bare ts

theorem Definition.read?_map_bare (ts : List Token) :
    read? (ts.map Token.bare) = (read? ts).bare (Option.map (Prod.map Token.bare bare)) := by
  rw [← funext relocate_forget]
  exact mirrors_read?.map_bare ts

/-! ## Schemas -/

/-- How far a reading came, without places. -/
def Progress.bare (p : Progress) : Progress where
  definitions := p.definitions.map Definition.bare
  rest := p.rest.map Token.bare
  problem := p.problem.map Diagnostic.bare

namespace Progress

theorem upTo_map_bare : ∀ (n : Nat) (before : List Definition) (ts : List Token),
    upTo n (before.map Definition.bare) (ts.map Token.bare) = (upTo n before ts).bare
  | 0, _, _ => rfl
  | n + 1, before, ts => by
    have hany (d : Definition) : ((before.map Definition.bare).any fun e => decide (e.name = d.bare.name)) =
        before.any fun e => decide (e.name = d.name) := by
      rw [List.any_map]
      rfl
    rw [upTo_succ, upTo_succ, Definition.read?_map_bare]
    cases Definition.read? ts with
    | failed problem rest => rfl
    | done nd rest =>
      rcases nd with _ | ⟨name, d⟩
      · rfl
      · have hnext := upTo_map_bare n (before ++ [d]) rest
        rw [List.map_append, List.map_singleton] at hnext
        simp only [Reading.bare, Option.map_some, Prod.map_apply, hany, hnext]
        split <;> rfl

end Progress

namespace Definition

theorem references_bare (d : Definition) : d.bare.references = d.references.map Reference.bare := by
  simp only [references, FieldType.references, bare, Field.bare, FieldType.leaves_bare, List.flatMap_map,
    List.map_flatMap, List.map_map]
  rfl

theorem resolve_map_bare (ds : List Definition) : resolve (ds.map bare) = (resolve ds).mapError Diagnostic.bare := by
  have hnames : (ds.map bare).map name = ds.map name := by
    rw [List.map_map]
    rfl
  have hreferences : (ds.map bare).flatMap references = (ds.flatMap references).map Reference.bare := by
    rw [List.flatMap_map, List.map_flatMap]
    simp only [references_bare]
  rw [resolve, resolve, hnames, hreferences, Reference.resolve, Reference.resolve, List.find?_map]
  have hname : (fun r : Reference => !(ds.map name).contains r.name) ∘ Reference.bare =
      fun r => !(ds.map name).contains r.name := rfl
  rw [hname]
  cases (ds.flatMap references).find? fun r => !(ds.map name).contains r.name <;> rfl

theorem remarks_bare (d : Definition) : d.bare.remarks = d.remarks := by
  rw [remarks, remarks, bare, List.filterMap_map]
  rfl

theorem invalidAttribute?_bare (d : Definition) :
    d.bare.invalidAttribute? = d.invalidAttribute?.map Diagnostic.bare := by
  rw [invalidAttribute?, invalidAttribute?, remarks_bare, List.map_findSome?]
  congr 1
  funext a
  cases h : a.invalid? with
  | none => simp [h]
  | some reason => simp [h, Diagnostic.bare, bare]

theorem validate_map_bare (ds : List Definition) : validate (ds.map bare) = (validate ds).mapError Diagnostic.bare := by
  have hcomp : invalidAttribute? ∘ bare = Option.map Diagnostic.bare ∘ invalidAttribute? :=
    funext invalidAttribute?_bare
  rw [validate, validate, List.findSome?_map, hcomp, ← List.map_findSome?]
  cases ds.findSome? invalidAttribute? <;> rfl

end Definition

theorem Token.terminated_map_bare (ts : List Token) : terminated (ts.map bare) = (terminated ts).map bare := by
  rw [terminated, terminated, List.getLast?_map]
  cases ts.getLast? with
  | none => rfl
  | some last =>
    have hk : last.bare.kind = last.kind := rfl
    simp only [Option.map_some, hk]
    split
    · rfl
    · rw [List.map_append]
      rfl

namespace Schema

/-- An outcome without places. -/
def bareOutcome (r : Except Diagnostic Schema) : Except Diagnostic Schema := (r.map bare).mapError Diagnostic.bare

theorem finish_bare (p : Progress) (ns : String) : p.bare.finish ns = bareOutcome (p.finish ns) := by
  rw [Progress.finish, Progress.finish, Progress.bare]
  cases p.problem with
  | some problem => rfl
  | none =>
    simp only [Option.map_none, Definition.resolve_map_bare]
    cases Definition.resolve p.definitions <;> rfl

/-- Reading tokens without places gives the same outcome without places. -/
theorem ofTokens_map_bare (ts : List Token) (ns : String) :
    ofTokens (ts.map Token.bare) ns = bareOutcome (ofTokens ts ns) := by
  have h := Progress.upTo_map_bare ((Token.terminated ts).length + 1) [] (Token.terminated ts)
  rw [ofTokens, ofTokens, Token.terminated_map_bare, Progress.ofTokens, List.length_map, ← finish_bare]
  exact congrArg (Progress.finish · ns) h

theorem validated_bare (s : Schema) : s.bare.validated = bareOutcome s.validated := by
  rw [validated, validated]
  have h := Definition.validate_map_bare s.definitions
  rw [show s.bare.definitions = s.definitions.map Definition.bare from rfl, h]
  cases Definition.validate s.definitions <;> rfl

theorem compile_map_bare (ts : List Token) (ns : String) :
    compile (ts.map Token.bare) ns = bareOutcome (compile ts ns) := by
  rw [compile, compile, ofTokens_map_bare]
  cases ofTokens ts ns with
  | error problem => rfl
  | ok s => exact validated_bare s

/-- Tokens of the same kinds and lexemes have the same outcome apart from places. -/
theorem bareOutcome_compile_congr {ts us : List Token} (h : ts.map Token.bare = us.map Token.bare) (ns : String) :
    bareOutcome (compile ts ns) = bareOutcome (compile us ns) := by
  rw [← compile_map_bare, ← compile_map_bare, h]

end Schema

end SchemaLang
