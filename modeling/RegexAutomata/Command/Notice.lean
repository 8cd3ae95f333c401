/-
What the command says about itself.
-/
import RegexAutomata.Text.CodePoint

namespace RegexAutomata.Command

def commandName : Text := "grepy"

def commandVersion : Text := "0.0.1"

def helpLines : List Text := [
  "usage: grepy [-h] [-v] [-n NFA_FILE] [-d DFA_FILE] [--version]",
  "             regex input_file",
  "",
  "Convert a regex to an NFA and a DFA, and test input strings against it.",
  "",
  "positional arguments:",
  "  regex                 Regex using '+' for union, '*' for Kleene star and ()",
  "                        for grouping",
  "  input_file            File with one input string per line",
  "",
  "options:",
  "  -h, --help            show this help message and exit",
  "  -v, --verbose         Verbose mode",
  "  -n NFA_FILE, --nfa-file NFA_FILE",
  "                        The dot file to write the NFA to (default: nfa.dot)",
  "  -d DFA_FILE, --dfa-file DFA_FILE",
  "                        The dot file to write the DFA to (default: dfa.dot)",
  "  --version             show program's version number and exit"]

end RegexAutomata.Command
