/-
Files as the command sees them: it reads whole files and writes whole files, and each can fail.
-/
import RegexAutomata.Command.Path
import RegexAutomata.Text.DecodeError
import RegexAutomata.Text.Quoted

namespace RegexAutomata.Command

/-- Why a file cannot be read or written. -/
inductive DiskError where
  | noSuchFile
  | notDirectory
  | isDirectory
  | nameTooLong
  /-- another cause, by its number -/
  | other (number : Nat) (description : Text)
deriving DecidableEq

namespace DiskError

def number : DiskError → Nat
  | noSuchFile => 2
  | notDirectory => 20
  | isDirectory => 21
  | nameTooLong => 36
  | other number _ => number

def description : DiskError → Text
  | noSuchFile => "No such file or directory"
  | notDirectory => "Not a directory"
  | isDirectory => "Is a directory"
  | nameTooLong => "File name too long"
  | other _ description => description

def message (e : DiskError) (path : Path) : Text :=
  "[Errno " ++ Text.ofNat e.number ++ "] " ++ e.description ++ ": " ++ Text.quoted path.write

end DiskError

/-- How files are read and written. -/
structure Disk (m : Type → Type) where
  read : Path → m (Except DiskError Bytes)
  write : Path → Bytes → m (Except DiskError Unit)

end RegexAutomata.Command
