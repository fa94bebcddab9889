import SchemaLang.Schema.Recorder
import SchemaLang.Source

/-!
# Evaluators

An evaluator is kept between runs. It holds what it reads and what its last run left behind: the tokens, the place of
the cursor, the definitions read and the uses of type names up to the cursor.

* A run is made of steps on this state: `Evaluator.load` gets the tokens, `Evaluator.rewind` forgets the last run,
  `Evaluator.read` goes on from the cursor and adds to what is there, and `Evaluator.conclude` makes the schema of it.
  `Evaluator.evaluate` puts them together. A run that cannot get its tokens leaves everything as it was.
* A reading does on this state what `Progress.upTo` does (`Evaluator.readUpTo_eq`). So what is left behind has no effect
  on a run: the answer depends only on the input, the namespace and the files (`Evaluator.evaluate_fst`), and neither
  input nor namespace ever changes (`Evaluator.input_evaluate`, `Evaluator.ns_evaluate`).
-/

namespace SchemaLang

/-- What an evaluator reads. -/
inductive Input where
  | sources (list : List Source)
  | tokens (list : List Token)
  deriving DecidableEq

/-- The tokens of an input at a moment. -/
def Input.stream (disk : Disk) : Input → Except Diagnostic (List Token)
  | sources list => Source.stream disk list
  | tokens list => .ok list

/-- A kept input with what the last run left behind. -/
structure Evaluator where
  input : Input
  ns : String
  /-- The tokens of the last run. -/
  tokens : List Token
  /-- The tokens from the cursor on. -/
  rest : List Token
  /-- The definitions of a run that failed. -/
  definitions : List Definition
  /-- The uses of type names that were noted in the last run. -/
  references : List Reference
  deriving DecidableEq

namespace Evaluator

/-- An evaluator that has not run. -/
def new (input : Input) (ns : String) : Evaluator := ⟨input, ns, [], [], [], []⟩

/-! ## The steps of a run -/

/-- Get the tokens of the input. -/
def load (disk : Disk) (e : Evaluator) : Except Diagnostic Evaluator :=
  (e.input.stream disk).map fun stream => { e with tokens := Token.terminated stream }

/-- Put the cursor in front of the first token, with nothing read. -/
def rewind (e : Evaluator) : Evaluator := { e with rest := e.tokens, definitions := [], references := [] }

/-- At most `n` more definitions from the cursor on, up to the end of the file or a problem. The uses of type names are
noted as they are read, also in a definition that is not finished or is not the first of its name. -/
def readUpTo : Nat → Evaluator → Option Diagnostic × Evaluator
  | 0, e => (some .missingEndOfFile, e)
  | n + 1, e =>
    let (reading, uses) := Definition.record? e.rest
    let noted := { e with references := e.references ++ uses }
    match reading with
    | .failed problem rest => (some problem, { noted with rest := rest })
    | .done none rest => (none, { noted with rest := rest.tail })
    | .done (some (name, d)) rest =>
      if e.definitions.any fun f => f.name = d.name then
        (some (.multipleDefinitions d.name name.span), { noted with rest := rest })
      else readUpTo n { noted with rest := rest, definitions := Definition.insert d e.definitions }

/-- The definitions from the cursor on, up to the end of the file or a problem. -/
def read (e : Evaluator) : Option Diagnostic × Evaluator := readUpTo (e.rest.length + 1) e

/-- The schema of the definitions that were read, if the type names are defined. It takes the definitions away. -/
def conclude (e : Evaluator) : Except Diagnostic Schema × Evaluator :=
  match Reference.resolve (e.definitions.map Definition.name) e.references with
  | .error problem => (.error problem, e)
  | .ok () => (.ok ⟨e.ns, e.definitions⟩, { e with definitions := [] })

/-- The answer of a run that starts again with the tokens at hand, and what is kept after it. -/
def restart (e : Evaluator) : Except Diagnostic Schema × Evaluator :=
  match e.rewind.read with
  | (some problem, stopped) => (.error problem, stopped)
  | (none, finished) => finished.conclude

/-- The answer of one run, and what is kept after it. -/
def evaluate (disk : Disk) (e : Evaluator) : Except Diagnostic Schema × Evaluator :=
  match e.load disk with
  | .error problem => (.error problem, e)
  | .ok loaded => loaded.restart

/-- The answer of a last run, with valid attributes. -/
def compile (disk : Disk) (e : Evaluator) : Except Diagnostic Schema := do
  let s ← (e.evaluate disk).1
  s.validated

/-! ## What a run depends on -/

/-- A reading changes neither the input nor the namespace. -/
theorem input_ns_readUpTo (n : Nat) (e : Evaluator) :
    (readUpTo n e).2.input = e.input ∧ (readUpTo n e).2.ns = e.ns := by
  fun_induction readUpTo n e with
  | case5 n e uses noted name d rest hnew hr ih => exact ih
  | _ => exact ⟨rfl, rfl⟩

/-- A reading goes on behind definitions of which the uses of type names are noted. It comes as far as `Progress.upTo`,
and it notes the uses in all definitions. More is noted only if there is a problem. -/
theorem readUpTo_eq (n : Nat) (e : Evaluator) (h : e.references = e.definitions.flatMap Definition.references) :
    (readUpTo n e).1 = (Progress.upTo n e.definitions e.rest).problem ∧
      (readUpTo n e).2.definitions = (Progress.upTo n e.definitions e.rest).definitions ∧
        ∃ more, (readUpTo n e).2.references = (readUpTo n e).2.definitions.flatMap Definition.references ++ more ∧
          ((readUpTo n e).1 = none → more = []) := by
  fun_induction readUpTo n e with
  | case1 e => exact ⟨rfl, rfl, [], by rw [h, List.append_nil], fun _ => rfl⟩
  | case2 n e uses noted problem rest hr =>
    rw [Progress.upTo_succ, (Definition.read?_of_record? hr).1]
    exact ⟨rfl, rfl, uses, congrArg (· ++ uses) h, nofun⟩
  | case3 n e uses noted rest hr =>
    obtain ⟨hread, huses⟩ := Definition.read?_of_record? hr
    rw [Progress.upTo_succ, hread]
    exact ⟨rfl, rfl, uses, congrArg (· ++ uses) h, fun _ => huses none rest rfl⟩
  | case4 n e uses noted name d rest hd hr =>
    rw [Progress.upTo_succ, (Definition.read?_of_record? hr).1]
    simp only [hd, if_true, true_and]
    exact ⟨rfl, uses, congrArg (· ++ uses) h, nofun⟩
  | case5 n e uses noted name d rest hnew hr ih =>
    obtain ⟨hread, huses⟩ := Definition.read?_of_record? hr
    have hd : Definition.insert d e.definitions = e.definitions ++ [d] :=
      Definition.insert_of_new (Bool.eq_false_iff.2 hnew)
    rw [Progress.upTo_succ, hread]
    simp only [hnew]
    rw [hd] at ih ⊢
    refine ih ?_
    have hd : uses = d.references := huses (some (name, d)) rest rfl
    simp [noted, h, hd]

/-- The uses in a definition without an end are noted, the one in front of a missing bracket included. -/
example :
    let e := new (.sources [.text "struct A \x7b B b; map[string, C"]) "N"
    (e.evaluate Disk.empty).2.references.map Reference.name = ["B", "C"] := by decide +kernel

/-- If the uses in all definitions are noted, the schema is made if they all are of defined names. -/
theorem conclude_fst {e : Evaluator} (h : e.references = e.definitions.flatMap Definition.references) :
    e.conclude.1 = (Definition.resolve e.definitions).map fun _ => ⟨e.ns, e.definitions⟩ := by
  rw [conclude, Definition.resolve, h]
  cases Reference.resolve (e.definitions.map Definition.name) (e.definitions.flatMap Definition.references) <;> rfl

theorem input_ns_conclude (e : Evaluator) : e.conclude.2.input = e.input ∧ e.conclude.2.ns = e.ns := by
  unfold conclude
  split <;> exact ⟨rfl, rfl⟩

/-- A run that starts again reads the tokens at hand, whatever else is there. -/
theorem restart_fst (e : Evaluator) : e.restart.1 = (Progress.ofTokens e.tokens).finish e.ns := by
  obtain ⟨hproblem, hdefinitions, more, hreferences, hmore⟩ := readUpTo_eq (e.rewind.rest.length + 1) e.rewind rfl
  have hns := (input_ns_readUpTo (e.rewind.rest.length + 1) e.rewind).2
  have hprogress : Progress.upTo (e.rewind.rest.length + 1) e.rewind.definitions e.rewind.rest =
      Progress.ofTokens e.tokens := rfl
  rw [hprogress] at hproblem hdefinitions
  unfold restart read Progress.finish
  rw [← hproblem, ← hdefinitions]
  cases hr : readUpTo (e.rewind.rest.length + 1) e.rewind with
  | mk problem? finished =>
    rw [hr] at hreferences hmore hns
    cases problem? with
    | some problem => rfl
    | none =>
      rw [hmore rfl, List.append_nil] at hreferences
      have hconclude := conclude_fst hreferences
      rwa [hns] at hconclude

/-- The answer depends on the input, the namespace and the files alone. -/
theorem evaluate_fst (disk : Disk) (e : Evaluator) :
    (e.evaluate disk).1 = e.input.stream disk >>= fun tokens => Schema.ofTokens tokens e.ns := by
  unfold evaluate load
  cases e.input.stream disk with
  | error problem => rfl
  | ok stream => exact restart_fst { e with tokens := Token.terminated stream }

theorem input_ns_restart (e : Evaluator) : e.restart.2.input = e.input ∧ e.restart.2.ns = e.ns := by
  have hread : e.rewind.read.2.input = e.input ∧ e.rewind.read.2.ns = e.ns := input_ns_readUpTo _ e.rewind
  unfold restart
  split
  · rename_i problem stopped h
    rwa [h] at hread
  · rename_i finished h
    rw [h] at hread
    obtain ⟨hi, hn⟩ := input_ns_conclude finished
    exact ⟨hi.trans hread.1, hn.trans hread.2⟩

theorem input_evaluate (disk : Disk) (e : Evaluator) : (e.evaluate disk).2.input = e.input := by
  unfold evaluate load
  cases e.input.stream disk with
  | error problem => rfl
  | ok stream => exact (input_ns_restart { e with tokens := Token.terminated stream }).1

theorem ns_evaluate (disk : Disk) (e : Evaluator) : (e.evaluate disk).2.ns = e.ns := by
  unfold evaluate load
  cases e.input.stream disk with
  | error problem => rfl
  | ok stream => exact (input_ns_restart { e with tokens := Token.terminated stream }).2

end Evaluator

end SchemaLang
