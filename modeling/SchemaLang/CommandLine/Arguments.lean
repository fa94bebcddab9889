/-!
# Command line arguments

The two commands, and how they are told.

* `Command.request` reads the words after the program's name. A verbosity flag may stand anywhere; the name of the
  command comes first otherwise, then inputs and options in any order. `Command.ofArguments?` is the command that is
  asked for, if there is one.
* An option takes its value from the same word or from the next one. It may be given once. After `--` all words are
  inputs.
* A request for help is no command, and no misuse. What stands before it has to make sense, what follows is not read.
-/

namespace SchemaLang

/-- What the program can be asked to do. -/
inductive Command where
  /-- Summarize the definitions of a schema. -/
  | check (inputs : List String) (ns : String)
  /-- Write a schema as JSON, to a file or to standard output. -/
  | dump (inputs : List String) (ns : String) (output : Option String)
  deriving DecidableEq

namespace Command

/-- The options with a value. -/
inductive ValueOption where
  | ns
  | output
  deriving DecidableEq

/-- The letter of an option. -/
def ValueOption.letter : ValueOption → Char
  | ns => 'n'
  | output => 'o'

/-- The name of an option. -/
def ValueOption.name : ValueOption → String
  | ns => "namespace"
  | output => "output"

/-- Why words ask for no command. -/
inductive Refusal where
  /-- They ask for help. -/
  | help
  | misuse
  deriving DecidableEq

/-- What the words of a command have said so far. -/
structure Settings where
  inputs : List String
  ns : Option String
  output : Option String
  deriving DecidableEq

namespace Settings

/-- Before the first word. -/
def start : Settings := ⟨[], none, none⟩

/-- One more input, which has to have a name. -/
def addInput? (s : Settings) (path : String) : Option Settings :=
  if path = "" then none else some ⟨s.inputs ++ [path], s.ns, s.output⟩

/-- More inputs. -/
def addInputs? (s : Settings) : List String → Option Settings
  | [] => some s
  | path :: rest => (s.addInput? path).bind fun s => addInputs? s rest

/-- The value of an option that has none yet. An output has to have a name. -/
def give? (s : Settings) (option : ValueOption) (value : String) : Option Settings :=
  match option, s.ns, s.output with
  | .ns, none, output => some ⟨s.inputs, some value, output⟩
  | .output, ns, none => if value = "" then none else some ⟨s.inputs, ns, some value⟩
  | _, _, _ => none

end Settings

/-- What one word with flags says. -/
inductive Flags where
  | nothing
  | help
  | valued (option : ValueOption) (value : String)
  /-- An option whose value is the next word. -/
  | awaiting (option : ValueOption)
  deriving DecidableEq

/-- The letters after one dash, given the options that may stand here. -/
def readLetters? (options : List ValueOption) : List Char → Option Flags
  | [] => some .nothing
  | c :: rest =>
    if c = 'v' then readLetters? options rest
    else if c = 'h' then some .help
    else (options.find? fun option => option.letter = c).map fun option =>
      match rest with
      | [] => .awaiting option
      | '=' :: value => .valued option (String.ofList value)
      | value => .valued option (String.ofList value)

/-- The name after two dashes, with or without a value. -/
def readName? (options : List ValueOption) (word : List Char) : Option Flags :=
  let name := String.ofList (word.takeWhile (· ≠ '='))
  let option? := options.find? fun option => option.name = name
  match word.dropWhile (· ≠ '=') with
  | [] => if name = "verbose" then some .nothing else if name = "help" then some .help else option?.map .awaiting
  | _ :: value => option?.map fun option => .valued option (String.ofList value)

/-- The flags of a word, if it has any: `-` alone has none. -/
def flags? (options : List ValueOption) (word : String) : Option (Option Flags) :=
  match word.toList with
  | ['-'] => none
  | '-' :: '-' :: rest => some (readName? options rest)
  | '-' :: rest => some (readLetters? options rest)
  | _ => none

/-- What is not there is a misuse. -/
def orMisuse {α : Type} : Option α → Except Refusal α
  | some a => .ok a
  | none => .error .misuse

/-- The settings after the words of a command, the first of which may be the value of an option. -/
def readWords (options : List ValueOption) : Settings → Option ValueOption → List String → Except Refusal Settings
  | s, none, [] => .ok s
  | _, some _, [] => .error .misuse
  | s, some option, word :: rest =>
    if (flags? options word).isSome then .error .misuse
    else do readWords options (← orMisuse (s.give? option word)) none rest
  | s, none, word :: rest =>
    if word = "--" then orMisuse (s.addInputs? rest)
    else match flags? options word with
      | none => do readWords options (← orMisuse (s.addInput? word)) none rest
      | some none => .error .misuse
      | some (some .help) => .error .help
      | some (some .nothing) => readWords options s none rest
      | some (some (.valued option value)) => do readWords options (← orMisuse (s.give? option value)) none rest
      | some (some (.awaiting option)) => readWords options s (some option) rest

/-- The settings of a command with at least one input. -/
def settings (options : List ValueOption) (words : List String) : Except Refusal Settings := do
  let s ← readWords options Settings.start none words
  if s.inputs = [] then throw .misuse else return s

/-- What may follow the request for help. -/
def helpTopics : List (List String) := [[], ["check"], ["dump"], ["help"]]

/-- The command that the words of a command line ask for, or why they ask for none. The first word that settles this
does. -/
def request : List String → Except Refusal Command
  | [] => .error .misuse
  | word :: rest =>
    match flags? [] word with
    | some (some .nothing) => request rest
    | some (some .help) => .error .help
    | some _ => .error .misuse
    | none =>
      if word = "check" then (settings [.ns] rest).map fun s => check s.inputs (s.ns.getD "")
      else if word = "dump" then (settings [.ns, .output] rest).map fun s => dump s.inputs (s.ns.getD "") s.output
      else if word = "help" ∧ rest ∈ helpTopics then .error .help
      else .error .misuse

theorem request_check (rest : List String) : request ("check" :: rest) =
    (settings [.ns] rest).map fun s => check s.inputs (s.ns.getD "") := rfl

theorem request_dump (rest : List String) : request ("dump" :: rest) =
    (settings [.ns, .output] rest).map fun s => dump s.inputs (s.ns.getD "") s.output := rfl

/-- The command that the words of a command line ask for. -/
def ofArguments? (words : List String) : Option Command := (request words).toOption

theorem ofArguments?_eq_some_iff {words : List String} {command : Command} :
    ofArguments? words = some command ↔ request words = .ok command := by
  rw [ofArguments?]
  cases request words <;> simp [Except.toOption]

end Command

end SchemaLang
