import RegexAutomata.Command.FileTree
import RegexAutomata.Main
import RegexAutomata.Nfa.Operation
import RegexAutomata.Proofs.Command.Run
import RegexAutomata.Proofs.Dfa.Determinized
import RegexAutomata.Proofs.Dfa.Label
import RegexAutomata.Proofs.Dfa.Shortlex
import RegexAutomata.Proofs.Dfa.Simulation
import RegexAutomata.Proofs.Dfa.Trace
import RegexAutomata.Proofs.Dfa.Turns
import RegexAutomata.Proofs.Dot.Drawing
import RegexAutomata.Proofs.Dot.Label
import RegexAutomata.Proofs.Nfa.Arena
import RegexAutomata.Proofs.Nfa.Memory
import RegexAutomata.Proofs.Regex.Assemble
import RegexAutomata.Proofs.Regex.Call
import RegexAutomata.Proofs.Regex.Into
import RegexAutomata.Proofs.Regex.Shape
import RegexAutomata.Proofs.Regex.Size
import RegexAutomata.Proofs.Regex.Viable
import RegexAutomata.Proofs.Regex.Widening
import RegexAutomata.Proofs.Service.Dictionaries
import RegexAutomata.Proofs.Service.Simulate
import RegexAutomata.Proofs.Service.Statistics
import RegexAutomata.Regex.Call
