import SchemaLang.Definition.Reader
import SchemaLang.Schema.References

/-!
# Recording references

A type name is noted when it is read as a type, together with the name of the definition around it. So the uses in a
definition are known even if it is never finished.

* A `Recorder` is a reader that makes such notes. Types, fields and definitions are read in it as they are read without
  notes, with the same functions. `Definition.record?` reads a definition.
* `Recorder.Follows` says what is left of a recorder without its notes, and what the notes are when there is a value.
  There is one rule for each way in which recorders are put together.
* The notes on a definition that is read to its end are its references (`Definition.read?_of_record?`).
-/

namespace SchemaLang

/-- A way to read a construct inside the definition of a name, and the references that are noted. -/
def Recorder (α : Type) : Type := String → List Token → Reading α × List Reference

namespace Recorder

variable {α β : Type}

/-- What is noted before a problem stays noted. -/
instance : Monad Recorder where
  pure a := fun _ ts => (.done a ts, [])
  bind record next := fun definition ts =>
    match record definition ts with
    | (.done a rest, notes) =>
      let (reading, more) := next a definition rest
      (reading, notes ++ more)
    | (.failed problem rest, notes) => (.failed problem rest, notes)

theorem bind_apply (record : Recorder α) (next : α → Recorder β) (definition : String) (ts : List Token) :
    (record >>= next) definition ts = match record definition ts with
      | (.done a rest, notes) => ((next a definition rest).1, notes ++ (next a definition rest).2)
      | (.failed problem rest, notes) => (.failed problem rest, notes) := rfl

instance : MonadLift TokenReader Recorder where
  monadLift read := fun _ ts => (read ts, [])

/-- A name that no built-in type has is noted. -/
instance : Noting Recorder where
  typeName name := fun definition ts =>
    match Scalar.ofName? name.lexeme with
    | some _ => (.done () ts, [])
    | none => (.done () ts, [⟨name.lexeme, definition, name.span⟩])
  inDefinition owner record := fun _ ts => record owner.lexeme ts

/-! ## Recorders and readers -/

/-- Inside the definition of a name, a recorder reads what a reader reads, and the notes on the way to a value fit the
value. -/
def Follows (definition : String) (record : Recorder α) (read : TokenReader α)
    (Fits : α → List Reference → Prop) : Prop :=
  ∀ ts, (record definition ts).1 = read ts ∧ ∀ a rest, read ts = .done a rest → Fits a (record definition ts).2

namespace Follows

variable {definition : String} {record : Recorder α} {read : TokenReader α} {next : α → Recorder β}
  {next' : α → TokenReader β} {Fits : α → List Reference → Prop} {Fits' : β → List Reference → Prop}

theorem pure (a : α) (h : Fits a []) : Follows definition (Pure.pure a) (Pure.pure a) Fits := by
  refine fun ts => ⟨rfl, fun b rest hb => ?_⟩
  cases hb
  exact h

/-- Where a reader fails nothing has to fit. -/
theorem fail (problem : Diagnostic) :
    Follows definition (liftM (TokenReader.fail problem : TokenReader α)) (TokenReader.fail problem) Fits :=
  fun _ => ⟨rfl, fun _ _ h => by cases h⟩

/-- The notes of two recorders, one after the other, are those of both. -/
theorem bind (h : Follows definition record read Fits)
    (hnext : ∀ a notes, Fits a notes →
      Follows definition (next a) (next' a) fun b more => Fits' b (notes ++ more)) :
    Follows definition (record >>= next) (read >>= next') Fits' := by
  intro ts
  obtain ⟨hreading, hfits⟩ := h ts
  rw [bind_apply, TokenReader.bind_apply]
  generalize record definition ts = run at hreading hfits
  generalize read ts = reading at hreading hfits
  obtain ⟨first, notes⟩ := run
  obtain rfl : first = reading := hreading
  cases first with
  | done a rest => exact hnext a notes (hfits a rest rfl) rest
  | failed problem rest => exact ⟨rfl, fun _ _ h => by cases h⟩

/-- Nothing is noted while a reader reads. -/
theorem lift_bind (first : TokenReader α) (hnext : ∀ a, Follows definition (next a) (next' a) Fits') :
    Follows definition (liftM first >>= next) (first >>= next') Fits' := by
  have hfirst : Follows definition (liftM first) first fun _ notes => notes = [] := fun _ => ⟨rfl, fun _ _ _ => rfl⟩
  refine bind hfirst fun a notes hnotes => ?_
  subst hnotes
  exact hnext a

variable {item? : Recorder (Option α)} {read? : TokenReader (Option α)} {notes : α → List Reference}

/-- The notes on several items are those on each, one after the other. -/
theorem manyUpTo (h : Follows definition item? read? fun a? made => made = a?.elim [] notes) : ∀ n,
    Follows definition (TokenReader.manyUpTo item? n) (TokenReader.manyUpTo read? n) fun as made =>
      made = as.flatMap notes
  | 0 => fail _
  | n + 1 => by
    refine bind h fun a? made hmade => ?_
    cases a? with
    | none => exact pure _ (by simpa using hmade)
    | some a =>
      refine bind (manyUpTo h n) fun as more hmore => pure _ ?_
      obtain rfl : made = notes a := hmade
      simp [hmore]

theorem many (h : Follows definition item? read? fun a? made => made = a?.elim [] notes) :
    Follows definition (TokenReader.many item?) (TokenReader.many read?) fun as made => made = as.flatMap notes :=
  lift_bind TokenReader.remaining fun n => manyUpTo h (n + 1)

end Follows

end Recorder

open Recorder (Follows)

/-! ## Types -/

namespace FieldType

/-- Types are noted by their references. -/
abbrev Follows (definition : String) (record : Recorder FieldType) (read : TokenReader FieldType) : Prop :=
  Recorder.Follows definition record read fun t notes => notes = t.references definition

variable {definition : String} {record : Recorder FieldType} {read' : TokenReader FieldType}

theorem references_withSuffixes (definition : String) (closings : List Span) (t : FieldType) :
    (t.withSuffixes closings).references definition = t.references definition := by
  induction closings generalizing t with
  | nil => rfl
  | cons closing closings ih => exact ih _

theorem follows_readMap (h : Follows definition record read') (word : Token) :
    Follows definition (readMap record word) (readMap read' word) := by
  refine .lift_bind _ fun _ => .bind h fun key notes hkey => ?_
  split
  · refine .lift_bind _ fun _ => .bind h fun value more hvalue => .lift_bind _ fun closing => .pure _ ?_
    simp [references, leaves, hkey, hvalue]
  · exact .fail _

theorem follows_readArray (h : Follows definition record read') (word : Token) :
    Follows definition (readArray record word) (readArray read' word) :=
  .lift_bind _ fun _ => .bind h fun element notes helement => .lift_bind _ fun closing =>
    .pure _ (by simp [references, leaves, arrayOf, helement])

theorem follows_typeName (name : Token) :
    Recorder.Follows definition (Noting.typeName name) (Noting.typeName name) fun _ notes =>
      notes = (ofName name).references definition := by
  intro ts
  simp only [Noting.typeName, ofName]
  cases Scalar.ofName? name.lexeme with
  | some base => exact ⟨rfl, fun _ _ _ => rfl⟩
  | none => exact ⟨rfl, fun _ _ _ => rfl⟩

/-- A name is noted if the type is the definition of this name. -/
theorem follows_readName : Follows definition readName readName :=
  .lift_bind _ fun name => .bind (follows_typeName name) fun _ notes hnotes => .pure _ (by simpa using hnotes)

theorem follows_readBase (h : Follows definition record read') :
    Follows definition (readBase record) (readBase read') := by
  refine .lift_bind _ fun word? => ?_
  cases word? with
  | some word => exact follows_readMap h word
  | none =>
    refine .lift_bind _ fun word? => ?_
    cases word? with
    | some word => exact follows_readArray h word
    | none => exact follows_readName

theorem follows_readUpTo (definition : String) : ∀ depth, Follows definition (readUpTo depth) (readUpTo depth)
  | 0 => .fail _
  | depth + 1 => .lift_bind _ fun _ =>
    .bind (follows_readBase (follows_readUpTo definition depth)) fun base notes hbase =>
      .lift_bind _ fun closings => .pure _ (by simp [references_withSuffixes, hbase])

/-- The notes on a type are the references in it. -/
theorem follows_readIn (definition : String) : Follows definition (readIn Recorder) read :=
  .lift_bind TokenReader.remaining fun n => follows_readUpTo definition (n + 1)

end FieldType

/-! ## Fields -/

namespace Field

theorem follows_readType (definition : String) (owner : Token) (kind : DefinitionKind) :
    Follows definition (readType owner kind) (readType owner kind) fun t notes =>
      notes = t.references owner.lexeme := by
  cases kind with
  | enum => exact .pure _ rfl
  | struct | message => exact FieldType.follows_readIn owner.lexeme

theorem follows_read (definition : String) (kind : DefinitionKind) (owner : Token) (documentation : String) :
    Follows definition (read kind owner documentation) (read kind owner documentation) fun f notes =>
      notes = f.type.references owner.lexeme :=
  .lift_bind _ fun _ => .lift_bind _ fun _ => .bind (follows_readType definition owner kind) fun type notes htype =>
    .lift_bind _ fun _ => .lift_bind _ fun _ => .lift_bind _ fun _ => .pure _ (by simpa using htype)

theorem follows_read? (definition : String) (kind : DefinitionKind) (owner : Token) :
    Follows definition (read? kind owner) (read? kind owner) fun f? notes =>
      notes = f?.elim [] fun f => f.type.references owner.lexeme := by
  refine .lift_bind _ fun documentation => .lift_bind _ fun t => ?_
  split
  · exact .pure _ rfl
  · exact .bind (follows_read definition kind owner documentation) fun f notes hf => .pure _ (by simpa using hf)

end Field

/-! ## Definitions -/

namespace Definition

/-- The next definition together with its name token, and the references that are noted on the way. -/
def record? : List Token → Reading (Option (Token × Definition)) × List Reference := readIn? Recorder ""

theorem follows_readIn? (definition : String) :
    Follows definition (readIn? Recorder) read? fun d? notes => notes = d?.elim [] fun d => d.2.references := by
  refine .lift_bind _ fun _ => .lift_bind _ fun _ => ?_
  split
  · exact .pure _ rfl
  · refine .lift_bind _ fun _ => .lift_bind _ fun _ => .lift_bind _ fun kind => .lift_bind _ fun name =>
      .lift_bind _ fun _ => .bind (.many (Field.follows_read? definition kind name)) fun fields notes hfields =>
        .lift_bind _ fun _ => .pure _ ?_
    simpa [references, FieldType.references] using hfields

/-- A definition is read as without notes. If it is read to its end, its references are noted. -/
theorem read?_of_record? {ts : List Token} {reading : Reading (Option (Token × Definition))} {uses : List Reference}
    (h : record? ts = (reading, uses)) : read? ts = reading ∧
      ∀ d? rest, reading = .done d? rest → uses = d?.elim [] fun d => d.2.references := by
  obtain ⟨hread, huses⟩ := follows_readIn? "" ts
  rw [show readIn? Recorder "" ts = (reading, uses) from h] at hread huses
  exact ⟨hread.symm, fun d? rest hr => huses d? rest (hread ▸ hr)⟩

end Definition

end SchemaLang
