import SchemaLang.CommandLine.Arguments
import SchemaLang.Schema.Export
import SchemaLang.Workspace

/-!
# Running commands

* `Command.outcome` is what a command comes to on the files of a moment: a text, a text to save, or a failure. Both
  commands fail in the same way if the inputs do not compile.
* `CommandLine.run` is the program: the report of a command line, and the files after it. Files change only if a text is
  saved. A request for help is a success, and a misuse has an exit status of its own (`CommandLine.refused`).
-/

namespace SchemaLang

namespace Command

/-- The paths of the schema files. -/
def inputs : Command → List String
  | check inputs _ => inputs
  | dump inputs _ _ => inputs

/-- The namespace of the schema. -/
def ns : Command → String
  | check _ ns => ns
  | dump _ ns _ => ns

/-- A diagnostic with the file and the place that it is about. -/
def located (sources : List Source) (d : Diagnostic) : String :=
  match d.span? with
  | some span => (Source.nameOf? sources span.file).getD "<unknown>" ++ ":" ++ span.text ++ ": " ++ d.message
  | none => d.message

/-- The sources of the schema. -/
def sources (command : Command) : List Source := command.inputs.map Source.file

/-- A natural number as text. -/
def countText (n : Nat) : String := String.ofList (Text.decimal n)

/-- The line about a definition in the summary of a schema. -/
def summaryLine (d : Definition) : String :=
  (if d.isReadOnly then "readonly " else "") ++ d.kind.keyword ++ " " ++ d.name ++
    " (" ++ countText d.fields.length ++ " fields, " ++ countText d.attributes.length ++ " attributes)\n"

/-- The summary of a schema. -/
def summary (s : Schema) : String :=
  String.join (s.definitions.map summaryLine) ++ "OK: " ++ countText s.definitions.length ++ " definitions\n"

/-- A text to show, a text to save, or the report of a problem. -/
inductive Outcome where
  | shown (text : String)
  | saved (path text : String)
  | failed (problem : String)
  deriving DecidableEq

/-- What a command comes to if its inputs compile to a schema, or if there is a problem with them. -/
def conclude (command : Command) : Except Diagnostic Schema → Outcome
  | .error problem => .failed (located command.sources problem)
  | .ok s =>
    match command with
    | check _ _ => .shown (summary s)
    | dump _ _ none => .shown (s.exported ++ "\n")
    | dump _ _ (some path) => .saved path s.exported

/-- What a command comes to on the files of a moment. -/
def outcome (disk : Disk) (command : Command) : Outcome :=
  command.conclude (Schema.compileSources disk command.sources command.ns)

end Command

namespace CommandLine

/-- What a run of the program shows: its exit status, its output and its error message. -/
structure Report where
  status : Nat
  output : String
  error : Option String
  deriving DecidableEq

/-- The report of a success. -/
def success (text : String) : Report := ⟨0, text, none⟩

/-- The report of a failure. -/
def failure (problem : String) : Report := ⟨1, "", some ("error: " ++ problem ++ "\n")⟩

/-- The report of a command line that asks for no command. Only the exit status is described here, not the texts about
the usage. -/
def refused : Command.Refusal → Report
  | .help => ⟨0, "", none⟩
  | .misuse => ⟨2, "", none⟩

/-- The report of a saved text. -/
def savedTo (path : String) : Report := success ("Schema written to " ++ path ++ "\n")

/-- The report of a text that cannot be saved. -/
def notSaved (path : String) (fault : FileFault) : Report := failure (path ++ ": " ++ fault.message)

/-- The report of a command, and the files after it. -/
def runCommand (files : Files) (command : Command) : Report × Files :=
  match command.outcome files.disk with
  | .shown text => (success text, files)
  | .failed problem => (failure problem, files)
  | .saved path text =>
    match files.write path text with
    | .ok written => (savedTo path, written)
    | .error fault => (notSaved path fault, files)

/-- The report of a command line, and the files after it. -/
def run (files : Files) (arguments : List String) : Report × Files :=
  match Command.request arguments with
  | .error refusal => (refused refusal, files)
  | .ok command => runCommand files command

end CommandLine

end SchemaLang
