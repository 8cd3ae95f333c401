/-
What is told of arguments that start no work.
-/
import RegexAutomata.Command.Flag
import RegexAutomata.Text.Quoted

namespace RegexAutomata.Command

/-- What is wrong with the arguments. -/
inductive UsageError where
  | ambiguous (argument : Text) (flags : List Flag)
  | valueMissing (o : Output)
  /-- a switch has a value, or unknown letters stand behind its letter -/
  | valueIgnored (s : Switch) (value : Text)
  /-- the names of texts that were not given -/
  | required (names : List Text)
  | unrecognized (arguments : List Text)
deriving DecidableEq

def UsageError.message : UsageError → Text
  | ambiguous argument flags =>
    "ambiguous option: " ++ argument ++ " could match " ++ Text.join ", " (flags.map Flag.name)
  | valueMissing o => "argument " ++ (Flag.output o).display ++ ": expected one argument"
  | valueIgnored s value =>
    "argument " ++ (Flag.switch s).display ++ ": ignored explicit argument " ++ Text.quoted value
  | required names => "the following arguments are required: " ++ Text.join ", " names
  | unrecognized arguments => "unrecognized arguments: " ++ Text.join " " arguments

/-- Why the command does not begin its work. -/
inductive Halt where
  | usage (e : UsageError)
  | help
  | version
deriving DecidableEq

end RegexAutomata.Command
