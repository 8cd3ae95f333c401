/-
Reading the dictionary form back.

A dictionary names its states by numerals, marks edges that read nothing with the empty text and has
no entry for a state without moves. `Dictionary.decode` reads the numerals and lists the edges; it
does not look at which kind of automaton was written.

* `FiniteAutomaton` — what is read: a graph with texts along its paths;
* `Text.toInt?_ofInt` — a numeral is read back;
* `Dictionary.decode_eq` — a dictionary whose names are numerals is read;
* `Dictionary.Regular` — names and symbols that stand once, with targets in numerical order.
-/
import RegexAutomata.Dictionary
import RegexAutomata.Json.Numeral
import RegexAutomata.Proofs.Text.Delimited

namespace RegexAutomata

/-! ### Numerals -/

namespace Text

/-- The number that digits stand for. -/
def toNat? (t : Text) : Option Nat :=
  if t ≠ [] ∧ t.all CodePoint.isDigit then some (Json.Numeral.digitsValue t) else none

/-- The number that a numeral stands for, with a minus sign or none. -/
def toInt? : Text → Option Int
  | [] => none
  | c :: rest =>
    if c = '-' then (toNat? rest).map fun n => -(n : Int)
    else (toNat? (c :: rest)).map fun n => (n : Int)

theorem digitsValue_ofNat (n : Nat) : Json.Numeral.digitsValue (ofNat n) = n := by
  calc
    Json.Numeral.digitsValue (ofNat n) = Nat.ofDigitChars 10 (Nat.toDigits 10 n) 0 := by
      rw [Json.Numeral.digitsValue, ofNat, List.foldl_map]
      rfl
    _ = n := Nat.ofDigitChars_ten_toDigits

theorem toNat?_ofNat (n : Nat) : toNat? (ofNat n) = some n := by
  have hdigits : (ofNat n).all CodePoint.isDigit = true :=
    List.all_eq_true.mpr fun c => isDigit_of_mem_ofNat
  rw [toNat?, if_pos ⟨ofNat_ne_nil n, hdigits⟩, digitsValue_ofNat]

/-- No numeral is lost. -/
theorem toInt?_ofInt (q : Int) : toInt? (ofInt q) = some q := by
  cases q with
  | ofNat n =>
    obtain ⟨c, t, ht⟩ := List.exists_cons_of_ne_nil (ofNat_ne_nil n)
    have hdigit : c.isDigit = true := isDigit_of_mem_ofNat (ht ▸ List.mem_cons_self)
    have hsign : c ≠ CodePoint.ofChar '-' := by
      rintro rfl
      cases hdigit
    show toInt? (ofNat n) = _
    rw [ht, toInt?, if_neg hsign, ← ht, toNat?_ofNat]
    rfl
  | negSucc n =>
    show toInt? (CodePoint.ofChar '-' :: ofNat (n + 1)) = _
    rw [toInt?, if_pos rfl, toNat?_ofNat]
    rfl

end Text

/-! ### Automata as graphs -/

/-- A finite automaton as a graph, with any edges. -/
structure FiniteAutomaton where
  states : List Int
  alphabet : Alphabet
  start : Int
  accepting : StateSet
  edges : List (Int × Symbol × Int)
deriving DecidableEq

namespace FiniteAutomaton

/-- A path from a state to a state, with the text that is read on it: an edge reads the one code
point of its symbol, or nothing. -/
inductive Path (a : FiniteAutomaton) : Int → Text → Int → Prop where
  | nil (q : Int) : Path a q [] q
  | silent {p q r : Int} {w : Text} : (p, epsilon, q) ∈ a.edges → Path a q w r → Path a p w r
  | read {p q r : Int} {c : CodePoint} {w : Text} :
    (p, [c], q) ∈ a.edges → Path a q w r → Path a p (c :: w) r

/-- A text is accepted if it is read on a path from the start to an accepting state. -/
def Accepts (a : FiniteAutomaton) (w : Text) : Prop := ∃ q ∈ a.accepting, a.Path a.start w q

end FiniteAutomaton

/-! ### Dictionaries -/

namespace Dictionary

/-- The edges of some entries one by one, with the names of their ends. -/
def edgesOf (entries : List (Text × List (Symbol × List Text))) : List (Text × Symbol × Text) :=
  entries.flatMap fun (p, rows) =>
    rows.flatMap fun (a, targets) => targets.map fun q => (p, a, q)

def readEdge? : Text × Symbol × Text → Option (Int × Symbol × Int)
  | (p, a, q) => do return (← p.toInt?, a, ← q.toInt?)

/-- The automaton that a dictionary stands for, if its names are numerals. -/
def decode (d : Dictionary) : Option FiniteAutomaton := do
  let states ← d.states.mapM Text.toInt?
  let start ← d.start.toInt?
  let accepting ← d.accepting.mapM Text.toInt?
  let edges ← (edgesOf d.transitions).mapM readEdge?
  return ⟨states, .ofList d.alphabet, start, .ofList accepting, edges⟩

/-- An edge with its ends named. -/
def nameEdge : Int × Symbol × Int → Text × Symbol × Text
  | (p, a, q) => (.ofInt p, a, .ofInt q)

theorem readEdge?_nameEdge (e : Int × Symbol × Int) : readEdge? (nameEdge e) = some e := by
  rw [nameEdge, readEdge?, Text.toInt?_ofInt, Text.toInt?_ofInt]
  rfl

/-- What was written element by element is read element by element. -/
theorem mapM_map {α β : Type} {write : α → β} {read : β → Option α}
    (h : ∀ a, read (write a) = some a) (l : List α) : (l.map write).mapM read = some l := by
  induction l with
  | nil => rfl
  | cons a l ih =>
    rw [List.map_cons, List.mapM_cons, h, ih]
    rfl

/-- Names that are numerals are read back. -/
theorem decode_eq {d : Dictionary} {states accepting : List Int} {start : Int}
    {edges : List (Int × Symbol × Int)} (hstates : d.states = states.map .ofInt)
    (hstart : d.start = .ofInt start) (haccepting : d.accepting = accepting.map .ofInt)
    (hedges : edgesOf d.transitions = edges.map nameEdge) :
    d.decode = some ⟨states, .ofList d.alphabet, start, .ofList accepting, edges⟩ := by
  rw [decode, hstates, hstart, haccepting, hedges, mapM_map Text.toInt?_ofInt,
    mapM_map Text.toInt?_ofInt, mapM_map readEdge?_nameEdge, Text.toInt?_ofInt]
  rfl

/-- Every state has one entry at most, which is not empty and has each symbol once, with one target
or more in strictly ascending order of their numbers. -/
structure Regular (d : Dictionary) : Prop where
  names : (d.transitions.map Prod.fst).Nodup
  rows : ∀ entry ∈ d.transitions, entry.2 ≠ [] ∧ (entry.2.map Prod.fst).Nodup
  targets : ∀ entry ∈ d.transitions, ∀ row ∈ entry.2,
    ∃ ts : List Int, row.2 = ts.map .ofInt ∧ ts ≠ [] ∧ ts.Pairwise (· < ·)

end Dictionary

end RegexAutomata
