/-
A run of the command.

The lines of the input file are tried with the deterministic automaton of the expression over the
code points of the lines. Both automata are drawn to files first, so that no verdict is given if a
file cannot be written; the first file stays if only the second fails.

* `run_of_halt` — arguments that start no work leave all files alone.
-/
import RegexAutomata.Command.Arguments
import RegexAutomata.Command.Disk
import RegexAutomata.Command.Notice
import RegexAutomata.Dfa.Subsets
import RegexAutomata.Dfa.Trace
import RegexAutomata.Dot.Drawing
import RegexAutomata.Regex.Parser
import RegexAutomata.Text.Lines
import RegexAutomata.Text.Utf8

namespace RegexAutomata.Command

/-- What ends a run without an exit code. -/
inductive Fault where
  /-- the input file holds no text -/
  | undecodable (e : DecodeError)
  /-- a path holds the code point zero -/
  | nullInPath
  /-- there is no path to read from or to write to -/
  | pathMissing (reading : Bool)
deriving DecidableEq

def Fault.message : Fault → Text
  | undecodable e => e.message
  | nullInPath => "embedded null byte"
  | pathMissing reading =>
    let use : Text := if reading then "read_text" else "write_text"
    "'list' object has no attribute '" ++ use ++ "'"

inductive Ending where
  | exit (code : Nat)
  | fault (f : Fault)
deriving DecidableEq

/-- What a run leaves behind besides files: its results, what it tells about them, and its end. -/
structure Report where
  output : Text
  messages : Text
  ending : Ending
deriving DecidableEq

/-- Lines, each with a line feed at its end. -/
def unlines (lines : List Text) : Text := lines.flatMap fun line => line ++ "\n"

/-- The report of a run that does not begin its work. -/
def Halt.report : Halt → Report
  | .usage e => ⟨[], unlines [commandName ++ ": error: " ++ e.message], .exit 2⟩
  | .help => ⟨unlines helpLines, [], .exit 0⟩
  | .version => ⟨unlines [commandName ++ " " ++ commandVersion], [], .exit 0⟩

/-! ### Steps -/

inductive Step where
  | begin
  | nfa
  | dfa
  | write
  | done
deriving DecidableEq

/-- The written form of a path that may be missing. -/
def pathText (p : Option Path) : Text := p.elim "[]" Path.write

/-- What a verbose run tells at a step. -/
def Arguments.stepMessage (a : Arguments) : Step → Text
  | .begin => commandName ++ " version: " ++ commandVersion
  | .nfa => "Creating NFA..."
  | .dfa => "Creating DFA..."
  | .write =>
    "Writing NFA to " ++ pathText a.nfaFile ++ " and DFA to " ++ pathText a.dfaFile ++ "..."
  | .done => "DONE"

/-- What a run tells that took some steps. -/
def Arguments.stepMessages (a : Arguments) (steps : List Step) : Text :=
  if a.verbose then unlines (steps.map a.stepMessage) else []

/-- The report of a run that an error ended after some steps. -/
def Arguments.failed (a : Arguments) (steps : List Step) (message : Text) : Report :=
  ⟨[], a.stepMessages steps ++ unlines [message], .exit 1⟩

/-- The report of a run that a fault ended after some steps. -/
def Arguments.faulted (a : Arguments) (steps : List Step) (f : Fault) : Report :=
  ⟨[], a.stepMessages steps, .fault f⟩

/-- The report of a run that gave its results. -/
def Arguments.finished (a : Arguments) (results : List Text) : Report :=
  ⟨unlines results, a.stepMessages [.begin, .nfa, .dfa, .write, .done], .exit 0⟩

/-! ### Files -/

/-- Why a file was not read or written. -/
inductive FileTrouble where
  | disk (e : DiskError) (path : Path)
  | fault (f : Fault)
deriving DecidableEq

/-- The report of a run that trouble with a file ended, with a word on what was tried. -/
def Arguments.troubled (a : Arguments) (steps : List Step) (tried : Text) : FileTrouble → Report
  | .disk e path => a.failed steps (tried ++ ": " ++ e.message path)
  | .fault f => a.faulted steps f

variable {m : Type → Type} [Monad m]

/-- The path at which a file can be looked for. -/
def usablePath (reading : Bool) : Option Path → Except FileTrouble Path
  | none => .error (.fault (.pathMissing reading))
  | some path => if path.holdsNull then .error (.fault .nullInPath) else .ok path

def readFile (disk : Disk m) (path : Option Path) : ExceptT FileTrouble m Bytes := do
  let path ← liftM (usablePath true path)
  ExceptT.mk (disk.read path >>= fun r => pure (r.mapError (.disk · path)))

def writeFile (disk : Disk m) (path : Option Path) (t : Text) : ExceptT FileTrouble m Unit := do
  let path ← liftM (usablePath false path)
  ExceptT.mk (disk.write path (Utf8.encode t) >>= fun r => pure (r.mapError (.disk · path)))

/-! ### Runs -/

def linesOf (content : Bytes) : Except DecodeError (List Text) :=
  match Utf8.decode false content with
  | .error e => .error e
  | .ok t => .ok (Text.splitLines (Text.uniformLineEnds t))

/-- Both automata of an expression, and the lines that they are tried with. -/
structure Work where
  nfa : Nfa
  dfa : Dfa
  lines : List Text

/-- The work on lines. -/
def Work.ofLines (regex : Text) (lines : List Text) : Except Regex.ParseError Work :=
  let alphabet := Alphabet.ofTexts lines
  match Regex.toNfa regex alphabet with
  | .error e => .error e
  | .ok nfa => .ok { nfa, dfa := Dfa.ofNfa nfa alphabet, lines }

def Work.verdict (w : Work) (line : Text) : Text :=
  (if w.dfa.accepts line then "accept: " else "reject: ") ++ line

def Work.write (w : Work) (disk : Disk m) (a : Arguments) : ExceptT FileTrouble m Unit := do
  writeFile disk a.nfaFile w.nfa.drawing.render
  writeFile disk a.dfaFile w.dfa.drawing.render

/-- The run with the content of the input file. -/
def Arguments.runWith (a : Arguments) (disk : Disk m) (content : Bytes) : m Report :=
  match linesOf content with
  | .error e => pure (a.faulted [.begin] (.undecodable e))
  | .ok lines =>
    match Work.ofLines a.regex lines with
    | .error e => pure (a.failed [.begin, .nfa] ("Error parsing regex: " ++ e.message))
    | .ok w => do
      match ← (w.write disk a).run with
      | .error trouble =>
        return a.troubled [.begin, .nfa, .dfa, .write] "Cannot write dot file" trouble
      | .ok () => return a.finished (w.lines.map w.verdict)

def Arguments.run (a : Arguments) (disk : Disk m) : m Report := do
  match ← (readFile disk a.inputFile).run with
  | .error trouble => return a.troubled [.begin] "Cannot read input file" trouble
  | .ok content => a.runWith disk content

/-- A run of the command. -/
def run (disk : Disk m) (arguments : List Text) : m Report :=
  match Arguments.read arguments with
  | .error h => pure h.report
  | .ok a => a.run disk

theorem run_of_halt {disk : Disk m} {arguments : List Text} {h : Halt}
    (hr : Arguments.read arguments = .error h) : run disk arguments = pure h.report := by
  simp [run, hr]

end RegexAutomata.Command
