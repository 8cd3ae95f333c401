/-
The arguments of the command.

The arguments, told apart by their form, are taken from left to right: flags act at once, and the
texts that stand for themselves are the expression and the input file, in this order. What is left
over is an error, and so is a missing text, which is reported first.
-/
import RegexAutomata.Command.Path
import RegexAutomata.Command.Token

namespace RegexAutomata.Command

/-! ### Flags in one argument -/

/-- The flags of one argument: switches and, behind them, perhaps an output flag, with its path if
that stands in the argument too. -/
structure Cluster where
  switches : List Switch
  output : Option (Output × Option Text)
deriving DecidableEq

namespace Cluster

def ofFlag (value : Option Text) : Flag → Except UsageError Cluster
  | .output o => .ok ⟨[], some (o, value)⟩
  | .switch s =>
    match value with
    | none => .ok ⟨[s], none⟩
    | some t => .error (.valueIgnored s t)

/-- A flag's letter with the text behind it, which is the path of an output flag and more letters
behind a switch. -/
def ofLetters (f : Flag) : Text → Except UsageError Cluster
  | [] => ofFlag none f
  | c :: rest =>
    match f with
    | .output o => .ok ⟨[], some (o, some (c :: rest))⟩
    | .switch s =>
      match Flag.ofLetter? c with
      | none => .error (.valueIgnored s (c :: rest))
      | some next =>
        match ofLetters next rest with
        | .error e => .error e
        | .ok cluster => .ok { cluster with switches := s :: cluster.switches }

end Cluster

/-! ### From left to right -/

/-- What has been taken from the arguments so far. -/
structure Draft where
  regex : Option Text
  /-- the inner option is empty where a separator was given as the path -/
  inputFile : Option (Option Path)
  verbose : Bool
  nfaFile : Option Path
  dfaFile : Option Path
  leftOver : List Text
deriving DecidableEq

namespace Draft

/-- Nothing taken. The automata are written to two usual files. -/
def initial : Draft where
  regex := none
  inputFile := none
  verbose := false
  nfaFile := some (.ofName "nfa.dot")
  dfaFile := some (.ofName "dfa.dot")
  leftOver := []

/-- The path that a text gives; the separator gives none. -/
def pathOf (t : Text) : Option Path := if t = Token.separatorText then none else some (.read t)

def leave (d : Draft) (t : Text) : Draft := { d with leftOver := d.leftOver ++ [t] }

def isFull (d : Draft) : Bool := d.regex.isSome && d.inputFile.isSome

/-- Takes a text as the expression or else as the input file with the given path. -/
def fill (d : Draft) (t : Text) (path : Option Path) : Draft :=
  if d.regex.isNone then { d with regex := some t } else { d with inputFile := some path }

def switch (d : Draft) : Switch → Except Halt Draft
  | .help => .error .help
  | .version => .error .version
  | .verbose => .ok { d with verbose := true }

def switchAll (d : Draft) : List Switch → Except Halt Draft
  | [] => .ok d
  | s :: rest =>
    match d.switch s with
    | .error h => .error h
    | .ok d => switchAll d rest

def setOutput (d : Draft) (o : Output) (t : Text) : Draft :=
  match o with
  | .nfa => { d with nfaFile := pathOf t }
  | .dfa => { d with dfaFile := pathOf t }

mutual

/-- Takes the arguments in turn. A separator next to a text that is taken is dropped, any other one
is left over. -/
def takeAll (d : Draft) : List Token → Except Halt Draft
  | [] => .ok d
  | .plain t :: .separator :: rest =>
    if d.isFull then ((d.leave t).leave Token.separatorText).takeAll rest
    else (d.fill t (some (.read t))).takeAll rest
  | .plain t :: rest =>
    if d.isFull then (d.leave t).takeAll rest else (d.fill t (pathOf t)).takeAll rest
  | .separator :: .plain t :: rest =>
    if d.isFull then ((d.leave Token.separatorText).leave t).takeAll rest
    else (d.fill t (some (.read t))).takeAll rest
  | .separator :: rest => (d.leave Token.separatorText).takeAll rest
  | .unknown t :: rest => (d.leave t).takeAll rest
  | .flag f value :: rest => d.takeCluster (Cluster.ofFlag value f) rest
  | .letters f behind :: rest => d.takeCluster (Cluster.ofLetters f behind) rest
termination_by tokens => 2 * tokens.length

/-- Takes the flags of one argument. An output flag without a path has its path in the next one. -/
def takeCluster (d : Draft) (cluster : Except UsageError Cluster) (rest : List Token) :
    Except Halt Draft :=
  match cluster with
  | .error e => .error (.usage e)
  | .ok ⟨switches, none⟩ =>
    match d.switchAll switches with
    | .error h => .error h
    | .ok d => d.takeAll rest
  | .ok ⟨switches, some (o, some t)⟩ =>
    match d.switchAll switches with
    | .error h => .error h
    | .ok d => (d.setOutput o t).takeAll rest
  | .ok ⟨switches, some (o, none)⟩ =>
    -- the path is looked for before any of the switches has its effect
    match rest with
    | .plain t :: rest =>
      match d.switchAll switches with
      | .error h => .error h
      | .ok d => (d.setOutput o t).takeAll rest
    | _ => .error (.usage (.valueMissing o))
termination_by 2 * rest.length + 1

end

end Draft

/-- The arguments of a run. A path is missing where a separator was given instead of one. -/
structure Arguments where
  regex : Text
  inputFile : Option Path
  verbose : Bool
  nfaFile : Option Path
  dfaFile : Option Path
deriving DecidableEq

def Draft.finish (d : Draft) : Except UsageError Arguments :=
  match d.regex, d.inputFile with
  | some regex, some inputFile =>
    if d.leftOver.isEmpty then
      .ok { regex, inputFile, verbose := d.verbose, nfaFile := d.nfaFile, dfaFile := d.dfaFile }
    else .error (.unrecognized d.leftOver)
  | none, _ => .error (.required ["regex", "input_file"])
  | some _, none => .error (.required ["input_file"])

def Arguments.read (texts : List Text) : Except Halt Arguments :=
  match Token.ofTexts texts with
  | .error e => .error (.usage e)
  | .ok tokens =>
    match Draft.initial.takeAll tokens with
    | .error h => .error h
    | .ok d =>
      match d.finish with
      | .error e => .error (.usage e)
      | .ok a => .ok a

end RegexAutomata.Command
