import SchemaLang.Evaluator
import SchemaLang.Files.Basic

/-!
# Workspaces

A workspace has files, and it keeps lists of sources and evaluators by name. It changes step by step, and each step has
an answer.

* `Workspace.step` makes one step. Files are read when a step needs their text, never before.
* `Workspace.run` makes several steps and gives all answers.
-/

namespace SchemaLang

/-- What paths read as, given the files. -/
def Files.disk (files : Files) : Disk := files.read

/-- Files, and what is kept by name. -/
structure Workspace where
  files : Files
  sources : List (String × List Source)
  evaluators : List (String × Evaluator)

/-- Where a new evaluator gets its input from. -/
inductive InputChoice where
  | given (input : Input)
  /-- The sources kept under a name, as they are now. -/
  | kept (id : String)

/-- A step of work. -/
inductive Step where
  | write (path : String) (content : ByteArray)
  | makeFolder (path : String)
  | remove (path : String)
  | keepSources (id : String) (sources : List Source)
  | stream (id : String)
  | sourceName (id : String) (file : Nat)
  | keepEvaluator (id : String) (choice : InputChoice) (ns : String)
  | evaluate (id : String)
  /-- Run an evaluator for the last time and give it up. -/
  | compile (id : String)
  | compileFiles (paths : List String) (ns : String)

/-- The answer of a step. -/
inductive Answer where
  | done
  | tokens (result : Except Diagnostic (List Token))
  | name (name : Option String)
  | schema (result : Except Diagnostic Schema)
  /-- Nothing is kept under a name. -/
  | unknown (id : String)

namespace Workspace

/-- A workspace in which nothing is kept. -/
def ofFiles (files : Files) : Workspace := ⟨files, [], []⟩

/-- The workspace with an evaluator kept under a name. -/
def keepEvaluator (w : Workspace) (id : String) (e : Evaluator) : Workspace :=
  ⟨w.files, w.sources, (id, e) :: w.evaluators.filter fun entry => entry.1 ≠ id⟩

/-- One step, and its answer. -/
def step (w : Workspace) : Step → Workspace × Answer
  | .write path content => (⟨w.files.put path content, w.sources, w.evaluators⟩, .done)
  | .makeFolder path => (⟨w.files.makeFolders path, w.sources, w.evaluators⟩, .done)
  | .remove path => (⟨w.files.delete path, w.sources, w.evaluators⟩, .done)
  | .keepSources id sources =>
    (⟨w.files, (id, sources) :: w.sources.filter fun entry => entry.1 ≠ id, w.evaluators⟩, .done)
  | .stream id =>
    match w.sources.lookup id with
    | some sources => (w, .tokens (Source.stream w.files.disk sources))
    | none => (w, .unknown id)
  | .sourceName id file =>
    match w.sources.lookup id with
    | some sources => (w, .name (Source.nameOf? sources file))
    | none => (w, .unknown id)
  | .keepEvaluator id (.given input) ns => (w.keepEvaluator id (Evaluator.new input ns), .done)
  | .keepEvaluator id (.kept sourcesId) ns =>
    match w.sources.lookup sourcesId with
    | some sources => (w.keepEvaluator id (Evaluator.new (.sources sources) ns), .done)
    | none => (w, .unknown sourcesId)
  | .evaluate id =>
    match w.evaluators.lookup id with
    | some e =>
      let run := e.evaluate w.files.disk
      (w.keepEvaluator id run.2, .schema run.1)
    | none => (w, .unknown id)
  | .compile id =>
    match w.evaluators.lookup id with
    | some e =>
      (⟨w.files, w.sources, w.evaluators.filter fun entry => entry.1 ≠ id⟩, .schema (e.compile w.files.disk))
    | none => (w, .unknown id)
  | .compileFiles paths ns => (w, .schema (Schema.compileSources w.files.disk (paths.map Source.file) ns))

/-- Several steps, and their answers. -/
def run (w : Workspace) : List Step → Workspace × List Answer
  | [] => (w, [])
  | s :: rest =>
    let (next, answer) := w.step s
    let (final, answers) := run next rest
    (final, answer :: answers)

end Workspace

end SchemaLang
