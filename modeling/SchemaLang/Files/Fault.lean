/-!
# File faults

The reasons for which a file cannot be read or written, with their wording.
-/

namespace SchemaLang

/-- Why a file cannot be read or written. -/
inductive FileFault where
  | notFound
  | notFolder
  | isFolder
  | notUtf8
  /-- A fault that has no name here, in the words of the system. -/
  | other (description : String)
  deriving DecidableEq

namespace FileFault

/-- The wording of a fault. -/
def message : FileFault → String
  | notFound => "No such file or directory (os error 2)"
  | notFolder => "Not a directory (os error 20)"
  | isFolder => "Is a directory (os error 21)"
  | notUtf8 => "stream did not contain valid UTF-8"
  | other description => description

end FileFault

end SchemaLang
