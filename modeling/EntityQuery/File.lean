/-!
# Files

What reading a file gives: its text, or the reason why there is none.
-/

namespace EntityQuery

inductive FileError where
  | missing
  | notDirectory
  | nameTooLong
  | directory
  | other (reason : String)
  deriving DecidableEq

namespace FileError

def message : FileError → String
  | missing => "No such file or directory (os error 2)"
  | notDirectory => "Not a directory (os error 20)"
  | nameTooLong => "File name too long (os error 36)"
  | directory => "Is a directory (os error 21)"
  | other reason => reason

/-- Whether the path leads to nothing at all, as opposed to something that cannot be read. -/
def isAbsent : FileError → Bool
  | missing | notDirectory | nameTooLong => true
  | directory | other _ => false

end FileError

abbrev File := Except FileError String

/-- The message for a text that is not in the expected format. -/
def malformed : String := "TOML parse error"

end EntityQuery
