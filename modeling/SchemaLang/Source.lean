import SchemaLang.Schema.Reader
import SchemaLang.Token.Lexer

/-!
# Sources

Where schema text comes from: text at hand, or files that are read when they are needed.

* `Source.stream` gives the tokens of several sources one after the other, with one end of file at the end of the last.
  Each source is read and cut into tokens before the next is read, so the first fault in this order is reported.
* `Source.fetch` gives the same tokens step by step, where reading a file is an action.
* `Schema.ofSources` and `Schema.compileSources` read all sources as one schema.
-/

namespace SchemaLang

/-- What reading a path gives at a moment. -/
abbrev Disk : Type := String → Except FileFault String

/-- A disk without files. -/
def Disk.empty : Disk := fun _ => .error .notFound

/-- A place that schema text comes from. -/
inductive Source where
  | text (content : String)
  | file (path : String)
  deriving DecidableEq

namespace Source

/-- What reports call the source. -/
def name : Source → String
  | text _ => "<schema>"
  | file path => path

/-- The text of the source. -/
def content (disk : Disk) : Source → Except FileFault String
  | text content => .ok content
  | file path => disk path

/-- The tokens of sources with numbers from `file` on, and an end of file that stands at `finish` if there are none. -/
def streamFrom (disk : Disk) (file : Nat) (finish : Span) : List Source → Except Diagnostic (List Token)
  | [] => .ok [Token.endOfFile finish]
  | source :: rest => do
    let content ← (source.content disk).mapError Diagnostic.unreadable
    let tokens ← Token.ofText content file
    let following ← streamFrom disk (file + 1) (Span.point file (Position.finish content.toList)) rest
    return tokens ++ following

/-- The tokens of sources in order, with an end of file. -/
def stream (disk : Disk) (sources : List Source) : Except Diagnostic (List Token) :=
  streamFrom disk 0 Span.zero sources

section

variable {m : Type → Type} [Monad m] (read : String → m (Except FileFault String))

/-- The text of the source, where `read` gets the text of a file. -/
def fetchContent : Source → m (Except FileFault String)
  | text content => pure (.ok content)
  | file path => read path

/-- The tokens of sources with numbers from `file` on, where `read` gets the text of a file. A source is looked at when
those before it are cut into tokens, so nothing is read after a problem. -/
def fetchFrom (file : Nat) (finish : Span) : List Source → m (Except Diagnostic (List Token))
  | [] => return .ok [Token.endOfFile finish]
  | source :: rest => do
    match ← source.fetchContent read with
    | .error fault => return .error (.unreadable fault)
    | .ok content =>
      match Token.ofText content file with
      | .error problem => return .error problem
      | .ok tokens =>
        let following ← fetchFrom (file + 1) (Span.point file (Position.finish content.toList)) rest
        return following.map fun following => tokens ++ following

/-- The tokens of sources in order, with an end of file, where `read` gets the text of a file. -/
def fetch (sources : List Source) : m (Except Diagnostic (List Token)) := fetchFrom read 0 Span.zero sources

end

/-- The name of the source with a number. -/
def nameOf? (sources : List Source) (file : Nat) : Option String := sources[file]?.map name

end Source

namespace Schema

/-- The schema that sources describe together. -/
def ofSources (disk : Disk) (sources : List Source) (ns : String) : Except Diagnostic Schema := do
  let tokens ← Source.stream disk sources
  ofTokens tokens ns

/-- The schema that sources describe together, with valid attributes. -/
def compileSources (disk : Disk) (sources : List Source) (ns : String) : Except Diagnostic Schema := do
  let tokens ← Source.stream disk sources
  compile tokens ns

/-- The schema that a text describes. -/
def ofText (text : String) (ns : String) : Except Diagnostic Schema := ofSources Disk.empty [.text text] ns

/-- The schema that a text describes, with valid attributes. -/
def compileText (text : String) (ns : String) : Except Diagnostic Schema := compileSources Disk.empty [.text text] ns

end Schema

end SchemaLang
