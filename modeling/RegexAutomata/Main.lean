/-
The command on the files of the system.
-/
import RegexAutomata.Command.Run

namespace RegexAutomata.Command

/-- The cause behind the number of an error, which is given with either sign. -/
def diskErrorOf (number : UInt32) (description : String) : DiskError :=
  let number := if number.toNat < 0x80000000 then number.toNat else 0x100000000 - number.toNat
  match [DiskError.noSuchFile, .notDirectory, .isDirectory, .nameTooLong].find?
      fun e => e.number = number with
  | some e => e
  | none => .other number description

/-- The cause of an error of the system. -/
def causeOf : IO.Error → DiskError
  | .alreadyExists _ n d | .invalidArgument _ n d | .permissionDenied _ n d
  | .resourceExhausted _ n d | .inappropriateType _ n d | .noSuchThing _ n d
  | .interrupted _ n d | .noFileOrDirectory _ n d
  | .otherError n d | .resourceBusy n d | .resourceVanished n d | .unsupportedOperation n d
  | .hardwareFault n d | .unsatisfiedConstraints n d | .illegalOperation n d
  | .protocolError n d | .timeExpired n d => diskErrorOf n d
  | .unexpectedEof => .other 0 "unexpected end of file"
  | .userError d => .other 0 d

/-- The disk of the system. -/
def systemDisk : Disk IO where
  read path := do
    try
      return .ok (← IO.FS.readBinFile path.write.toString).toList
    catch e => return .error (causeOf e)
  write path content := do
    try
      IO.FS.writeBinFile path.write.toString (ByteArray.mk content.toArray)
      return .ok ()
    catch e => return .error (causeOf e)

end RegexAutomata.Command

open RegexAutomata Command in
/-- Runs the command and gives its exit code; a fault is told like an error. -/
def main (arguments : List String) : IO UInt32 := do
  let report ← run systemDisk (arguments.map Text.ofString)
  IO.print report.output.toString
  IO.eprint report.messages.toString
  match report.ending with
  | .exit code => return code.toUInt32
  | .fault f =>
    IO.eprintln f.message.toString
    return 1
