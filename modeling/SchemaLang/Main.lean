import SchemaLang.CommandLine.Execution

/-!
# The program

Runs the command line on the system at hand, and prints the report.
-/

namespace SchemaLang.CommandLine

/-- The number of an error. Some system calls report its negation. -/
def numberOf (code : UInt32) : UInt32 := if code.toBitVec.msb then 0 - code else code

/-- The fault with an error number and a description. -/
def faultOfNumber (number : UInt32) (description : String) : FileFault :=
  if number = 2 then .notFound
  else if number = 20 then .notFolder
  else if number = 21 then .isFolder
  else .other (description ++ " (os error " ++ toString number ++ ")")

/-- The fault of a failed system call. -/
def faultOf : IO.Error → FileFault
  | .alreadyExists _ code text | .otherError code text | .resourceBusy code text | .resourceVanished code text
  | .unsupportedOperation code text | .hardwareFault code text | .unsatisfiedConstraints code text
  | .illegalOperation code text | .protocolError code text | .timeExpired code text | .interrupted _ code text
  | .noFileOrDirectory _ code text | .invalidArgument _ code text | .permissionDenied _ code text
  | .resourceExhausted _ code text | .inappropriateType _ code text | .noSuchThing _ code text =>
    faultOfNumber (numberOf code) text
  | .unexpectedEof => .other "unexpected end of file"
  | .userError text => .other text

/-- The outcome of an action on a file. -/
def attempt {α : Type} (action : IO (Except FileFault α)) : IO (Except FileFault α) := do
  try
    action
  catch problem =>
    return .error (faultOf problem)

/-- The system that the program is run on. -/
def ioSystem : System IO where
  read path := attempt do return Files.decode (← IO.FS.readBinFile path)
  write path text := attempt do return .ok (← IO.FS.writeFile path text)

end SchemaLang.CommandLine

open SchemaLang in
/-- Do what the command line asks for. -/
def main (arguments : List String) : IO UInt32 := do
  let report ← CommandLine.execute CommandLine.ioSystem arguments
  IO.print report.output
  match report.error with
  | some text => IO.eprint text
  | none => pure ()
  return report.status.toUInt32
