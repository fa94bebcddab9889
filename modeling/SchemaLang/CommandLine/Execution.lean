import SchemaLang.CommandLine.Run

/-!
# Executing commands

* A `System` reads and writes files. `CommandLine.execute` is the program on a system: it reads the inputs one after the
  other, and writes a file if the command asks for it.
* Files at hand are a system (`Files.system`). On them the program does what `CommandLine.run` says
  (`CommandLine.execute_system`).
-/

namespace SchemaLang

/-- What the program asks of the system that it runs on. -/
structure System (m : Type → Type) where
  /-- The text of the file at a path. -/
  read (path : String) : m (Except FileFault String)
  /-- Write a text to the file at a path. -/
  write (path text : String) : m (Except FileFault Unit)

/-- Files as a system. A file that cannot be written stays as it is. -/
def Files.system : System (StateM Files) where
  read path := fun files => (files.read path, files)
  write path text := fun files =>
    match files.write path text with
    | .ok written => (.ok (), written)
    | .error fault => (.error fault, files)

namespace CommandLine

variable {m : Type → Type} [Monad m]

/-- The report of a command that is carried out. -/
def perform (system : System m) (command : Command) : m Report := do
  let stream ← Source.fetch system.read command.sources
  match command.conclude (stream >>= fun tokens => Schema.compile tokens command.ns) with
  | .shown text => return success text
  | .failed problem => return failure problem
  | .saved path text =>
    match ← system.write path text with
    | .ok () => return savedTo path
    | .error fault => return notSaved path fault

/-- The report of a command line that is carried out. -/
def execute (system : System m) (arguments : List String) : m Report :=
  match Command.request arguments with
  | .error refusal => return refused refusal
  | .ok command => perform system command

end CommandLine

/-! ## Files at hand -/

namespace Files

variable {files written : Files} {path text : String} {fault : FileFault}

theorem system_write_ok (h : files.write path text = .ok written) :
    Files.system.write path text files = (.ok (), written) := by
  simp only [system, h]

theorem system_write_error (h : files.write path text = .error fault) :
    Files.system.write path text files = (.error fault, files) := by
  simp only [system, h]

/-- What is done after `x` is done with the result of `x` and on the files that it leaves. -/
theorem bind_of_eq {α β : Type} {x : StateM Files α} {f : α → StateM Files β} {after : Files} {a : α}
    (h : x files = (a, after)) : (x >>= f) files = f a after := by
  show f (x files).1 (x files).2 = f a after
  rw [h]

end Files

namespace Source

theorem fetchContent_system (files : Files) (source : Source) :
    source.fetchContent Files.system.read files = (source.content files.disk, files) := by
  cases source with
  | text content => rfl
  | file path => rfl

/-- The sources are read from the files as they are, and nothing is changed. -/
theorem fetchFrom_system (files : Files) (file : Nat) (finish : Span) (sources : List Source) :
    fetchFrom Files.system.read file finish sources files = (streamFrom files.disk file finish sources, files) := by
  induction sources generalizing file finish with
  | nil => rfl
  | cons source rest ih =>
    rw [fetchFrom, streamFrom, Files.bind_of_eq (fetchContent_system files source)]
    cases source.content files.disk with
    | error fault => rfl
    | ok content =>
      show _ = ((Token.ofText content file >>= fun tokens => _ : Except Diagnostic _), files)
      dsimp only
      cases Token.ofText content file with
      | error problem => rfl
      | ok tokens =>
        refine (Files.bind_of_eq (ih (file + 1) (Span.point file (Position.finish content.toList)))).trans ?_
        cases streamFrom files.disk (file + 1) (Span.point file (Position.finish content.toList)) rest with
        | error problem => rfl
        | ok following => rfl

end Source

namespace CommandLine

theorem perform_system (files : Files) (command : Command) :
    perform Files.system command files = runCommand files command := by
  refine (Files.bind_of_eq (Source.fetchFrom_system files 0 Span.zero command.sources)).trans ?_
  rw [runCommand, Command.outcome, Schema.compileSources, Source.stream]
  cases command.conclude _ with
  | shown text => rfl
  | failed problem => rfl
  | saved path text =>
    dsimp only
    cases hw : files.write path text with
    | ok written => exact Files.bind_of_eq (Files.system_write_ok hw)
    | error fault => exact Files.bind_of_eq (Files.system_write_error hw)

/-- On files at hand, a command line is carried out as `run` says. -/
theorem execute_system (files : Files) (arguments : List String) :
    execute Files.system arguments files = run files arguments := by
  rw [execute, run]
  cases Command.request arguments with
  | error refusal => rfl
  | ok command => exact perform_system files command

end CommandLine

end SchemaLang
