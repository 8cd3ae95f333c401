/-
Reading an expression into an automaton that has states already.

The states that were there before keep all that is stored for them, and no edge joins them to the
new ones.

* `Nfa.Grows.node?_eq`, `parseInto_eq_append` — what is stored for the old and for the new states;
* `parseInto_of_toNfa` — an expression without error adds its own automaton behind the old states,
  so that its texts and its subset automaton are those of the expression;
* `parseInto_error_keeps` — an expression with an error leaves states that cannot be reached, so
  that the automaton accepts what it accepted before and has the same subset automaton.
-/
import RegexAutomata.Proofs.Dfa.Renaming
import RegexAutomata.Proofs.Regex.Trace

namespace RegexAutomata

namespace Nfa

open Relation (ReflTransGen)

variable {n m : Nfa} {labels : Symbol → Prop} {base : Nat}

/-! ### Growth leaves the old states alone -/

namespace Grows

theorem start_eq (h : Grows labels base n m) : m.start = n.start := by
  induction h with
  | refl => rfl
  | newState _ ih => exact ih
  | link _ _ _ _ _ _ ih => rw [start_link, ih]

theorem finish_eq (h : Grows labels base n m) : m.finish = n.finish := by
  induction h with
  | refl => rfl
  | newState _ ih => exact ih
  | link _ _ _ _ _ _ ih => rw [finish_link, ih]

/-- What is stored for the states below the number from which states are linked stays. -/
theorem node?_eq (h : Grows labels base n m) (hbase : base ≤ n.size) {q : Int} (hq : q < base) :
    m.node? q = n.node? q := by
  induction h with
  | refl => rfl
  | newState h ih =>
    have hsize := h.size_le
    rw [node?_newState, if_neg (by omega), ih]
  | @link m p r a _ hp hr hbp hbr _ ih =>
    by_cases he : m.Edge p a r
    · rw [link_eq_self he, ih]
    · have hqp : q ≠ p := by omega
      have hqr : q ≠ r := by omega
      rw [node?_link hp.1 hr.1 he, ← ih]
      simp only [if_neg hqp, if_neg hqr]
      exact Option.map_id_apply

theorem targets_eq (h : Grows labels base n m) (hbase : base ≤ n.size) {q : Int} (hq : q < base)
    (a : Symbol) : m.targets q a = n.targets q a := by
  rw [targets, targets, h.node?_eq hbase hq]

/-- An automaton that grows from its last state on contains itself as it was. -/
theorem embeds (h : Grows labels n.size n m) (hstart : n.IsAllocated n.start) :
    Embeds id n m where
  injOn := Set.injOn_id _
  start := hstart
  start_eq := h.start_eq.symm
  finish_iff q _ := by rw [id, h.finish_eq]
  edge_iff p a y hp := by
    rw [Edge, id, h.targets_eq (Nat.le_refl _) hp.2]
    simp [Edge]

/-- No edges lead from the old states to the new ones. -/
theorem isAllocated_of_reach (h : Grows labels n.size n m) (hn : n.WellFormed) {p q : Int}
    (hp : n.IsAllocated p) (hpq : ReflTransGen (fun p q => ∃ a, m.Edge p a q) p q) :
    n.IsAllocated q := by
  induction hpq with
  | refl => exact hp
  | tail _ hedge ih =>
    obtain ⟨a, he⟩ := hedge
    rw [Edge, h.targets_eq (Nat.le_refl _) ih.2] at he
    exact hn.isAllocated he

end Grows

/-! ### An automaton behind another one -/

theorem append_empty (n : Nfa) (alphabet : Alphabet) :
    n.append (.empty alphabet) = { n with remembered := ∅ } := by
  simp [append, empty]

theorem zipIdx_map_shift (l : List Node) (k j : Nat) :
    ((l.map (Node.shift k)).zipIdx (j + k)).flatMap
        (fun (node, q) => node.edges.map fun (a, ts) => ((q : Int), a, ts)) =
      ((l.zipIdx j).flatMap fun (node, q) => node.edges.map fun (a, ts) => ((q : Int), a, ts)).map
        fun (q, a, ts) => (q + (k : Int), a, ts.map (· + (k : Int))) := by
  induction l generalizing j with
  | nil => rfl
  | cons node l ih =>
    have hnext : j + k + 1 = j + 1 + k := by omega
    rw [List.map_cons, List.zipIdx_cons, List.zipIdx_cons, List.flatMap_cons, List.flatMap_cons,
      List.map_append, hnext, ih]
    congr 1
    simp [Node.shift, Edges.shift]

/-- The list of all edges goes on with those of the second part. -/
theorem transitions_append (n m : Nfa) :
    (n.append m).transitions = n.transitions ++
      m.transitions.map fun (q, a, ts) => (q + (n.size : Int), a, ts.map (· + (n.size : Int))) := by
  have hshift := zipIdx_map_shift m.nodes.toList n.size 0
  have hsize : n.nodes.toList.length = n.size := rfl
  rw [transitions, transitions, transitions, ← hshift]
  simp only [append, Array.toList_append, Array.toList_map, List.zipIdx_append, List.flatMap_append,
    hsize]

/-- The second part is a copy, if start and final state are in it. -/
theorem embeds_append (n : Nfa) (hstart : m.IsAllocated m.start) :
    Embeds (· + (n.size : Int)) m
      { n.append m with start := m.start + n.size, finish := m.finish + n.size } where
  injOn := (add_left_injective _).injOn
  start := hstart
  start_eq := rfl
  finish_iff q _ := Int.add_left_inj _
  edge_iff p a y hp := by
    show (n.append m).Edge (p + n.size) a y ↔ _
    constructor
    · intro he
      obtain ⟨q, hq, rfl⟩ := exists_of_edge_append_right hp.1 he
      exact ⟨q, hq, rfl⟩
    · rintro ⟨q, hq, rfl⟩
      exact (edge_append_right hp.1).mpr hq

end Nfa

namespace Regex

open Nfa (Operation)
open Relation (ReflTransGen)

variable {regex : Text} {n m : Nfa} {e : Expr}

/-- An expression that is built behind some states is the one that is built on its own. -/
theorem Expr.compile_eq_beside_empty (e : Expr) (n : Nfa) (alphabet : Alphabet) :
    e.compile n = n.beside (e.compile (.empty alphabet)) := by
  rw [compile_eq_beside e (.empty alphabet), ← Nfa.beside_beside, Nfa.append_empty,
    compile_eq_beside e n]
  rfl

/-- What reading an expression does: its automaton comes behind the states that are there. -/
theorem parseInto_eq_append (h : toNfa regex n.alphabet = .ok m) :
    parseInto regex n = (.ok ⟨m.start + n.size, m.finish + n.size⟩,
      { n.append m with start := m.start + n.size, finish := m.finish + n.size }) := by
  obtain ⟨e, he⟩ := exists_derives_of_toNfa h
  have hm := eq_toNfa_of_derives h he
  have hparse := parse_of_derives (p := .ofNfa regex n) rfl he
  subst hm
  rw [parseInto, hparse]
  show (Except.ok (e.compile n).1, { (e.compile n).2 with
    start := (e.compile n).1.entry, finish := (e.compile n).1.exit : Nfa }) = _
  rw [e.compile_eq_beside_empty n n.alphabet]
  rfl

/-- An expression with an error lets the automaton grow, and no more. -/
theorem grows_of_parseInto_error {error : ParseError} {k : Nfa}
    (h : parseInto regex n = (.error error, k)) : Nfa.Grows (· ∈ n.alphabet) n.size n k := by
  have hparse := ensures_parse (.ofNfa regex n)
  rw [Ensures] at hparse
  rw [parseInto] at h
  cases hr : Parser.parse (.ofNfa regex n) with
  | ok f p =>
    rw [hr] at h
    cases h
  | error e p =>
    rw [hr] at h hparse
    cases h
    exact hparse.grows

/-- An automaton after any operations, and an expression that has no error over its alphabet:
reading the expression leaves the old states and their edges as they were and adds those of the
automaton of the expression, with numbers that go on where the old ones end. Start and final state
are those of the expression, and so are the accepted texts and the subset automaton, up to the
numbers in the sets. -/
theorem parseInto_of_toNfa (alphabet : Alphabet) (ops : List Operation)
    (h : toNfa regex alphabet = .ok m) :
    let n := Operation.after (.empty alphabet) ops
    ∃ k, parseInto regex n = (.ok ⟨m.start + n.size, m.finish + n.size⟩, k) ∧
      k.start = m.start + n.size ∧ k.finish = m.finish + n.size ∧ k.alphabet = n.alphabet ∧
      k.size = n.size + m.size ∧
      (∀ q, n.IsAllocated q → ∀ a, k.targets q a = n.targets q a) ∧
      (∀ q, m.IsAllocated q → ∀ a,
        k.targets (q + n.size) a = (m.targets q a).map (· + (n.size : Int))) ∧
      (∀ p a q, k.Edge p a q ↔
        n.Edge p a q ∨ ∃ r s, m.Edge r a s ∧ p = r + n.size ∧ q = s + n.size) ∧
      (k.transitions = n.transitions ++
        m.transitions.map fun (q, a, ts) => (q + (n.size : Int), a, ts.map (· + (n.size : Int)))) ∧
      (∀ w, k.accepts w = m.accepts w) ∧
      ∀ symbols, (Dfa.ofNfa k symbols).states = (Dfa.ofNfa m symbols).states ∧
        (Dfa.ofNfa k symbols).moves = (Dfa.ofNfa m symbols).moves ∧
        (Dfa.ofNfa k symbols).accepting = (Dfa.ofNfa m symbols).accepting ∧
        ∀ q s, (Dfa.ofNfa m symbols).subset? q = some s →
          ∃ t, (Dfa.ofNfa k symbols).subset? q = some t ∧ ∀ y, y ∈ t ↔ ∃ x ∈ s, x + n.size = y := by
  intro n
  have halphabet : n.alphabet = alphabet := Operation.alphabet_after (.empty alphabet) ops
  have hn : n.Sound := Nfa.sound_after alphabet ops
  have hm : m.WellFormed := (sound_of_toNfa h).wellFormed
  have hstart : m.IsAllocated m.start := isAllocated_start h
  rw [← halphabet] at h
  have hparse := parseInto_eq_append h
  have hk := (hn.change (.parse regex)).wellFormed
  rw [Nfa.Change.perform, hparse] at hk
  have hembeds := Nfa.embeds_append n hstart
  refine ⟨_, hparse, rfl, rfl, rfl, Nfa.size_append n m, ?_, ?_, ?_, ?_, ?_, ?_⟩
  · intro q hq a
    exact Nfa.targets_append_left m hq.2 a
  · intro q hq a
    exact Nfa.targets_append_right n hq.1 a
  · intro p a q
    exact Nfa.edge_append_iff
  · exact Nfa.transitions_append n m
  · exact hembeds.accepts_eq hm hk
  · exact hembeds.ofNfa hm hk

/-- After an expression with an error, an edge and a question, the automaton of another expression
comes behind what these have left. -/
theorem parseInto_of_toNfa_star_of_star :
    let m := Expr.toNfa (.star (.concat (.star (.literal 'a')) (.literal 'b'))) (.ofTexts ["ab"])
    let n := Operation.after (.empty (.ofTexts ["ab"])) [.change (.parse "ab(b"),
      .change (.addTransition 1 "b" 0), .ask .startStates]
    toNfa "(a*b)*" (.ofTexts ["ab"]) = .ok m ∧ n.size = 6 ∧
      ∃ k, parseInto "(a*b)*" n = (.ok ⟨m.start + n.size, m.finish + n.size⟩, k) ∧
        k.size = n.size + m.size ∧ ∀ w, k.accepts w = m.accepts w := by
  intro m n
  have hm : toNfa "(a*b)*" (.ofTexts ["ab"]) = .ok m := toNfa_of_derives derives_star_of_star
  obtain ⟨k, hk, -, -, -, hsize, -, -, -, -, haccepts, -⟩ := parseInto_of_toNfa (.ofTexts ["ab"])
    [.change (.parse "ab(b"), .change (.addTransition 1 "b" 0), .ask .startStates] hm
  exact ⟨hm, by decide +kernel, k, hk, hsize, haccepts⟩

/-- An automaton after any operations whose start is a state, and an expression in which an error is
found, wherever that is: the ends, the alphabet and the edges of all old states stay, and so do the
accepted texts and the subset automaton. What was added before the error cannot be reached from any
old state. -/
theorem parseInto_error_keeps (alphabet : Alphabet) (ops : List Operation) {error : ParseError}
    {k : Nfa} :
    let n := Operation.after (.empty alphabet) ops
    n.IsAllocated n.start → parseInto regex n = (.error error, k) →
      k.start = n.start ∧ k.finish = n.finish ∧ k.alphabet = n.alphabet ∧
      (∀ q, n.IsAllocated q → ∀ a, k.targets q a = n.targets q a) ∧
      (∀ w, k.accepts w = n.accepts w) ∧
      (∀ symbols, Dfa.ofNfa k symbols = Dfa.ofNfa n symbols) ∧
      ∀ p q, n.IsAllocated p → ReflTransGen (fun p q => ∃ a, k.Edge p a q) p q →
        n.IsAllocated q := by
  intro n hstart hparse
  have hn : n.WellFormed := (Nfa.sound_after alphabet ops).wellFormed
  have hgrows : Nfa.Grows (· ∈ n.alphabet) n.size n k := grows_of_parseInto_error hparse
  have hk : k.WellFormed := hgrows.wellFormed hn
  have hembeds := hgrows.embeds hstart
  refine ⟨hgrows.start_eq, hgrows.finish_eq, hgrows.alphabet_eq, ?_, ?_, ?_, ?_⟩
  · intro q hq a
    exact hgrows.targets_eq (Nat.le_refl _) hq.2 a
  · exact hembeds.accepts_eq hn hk
  · exact hembeds.ofNfa_eq hn hk hgrows.finish_eq
  · intro p q hp hpq
    exact hgrows.isAllocated_of_reach hn hp hpq

/-- A group that is not closed, behind the automaton of `ab`: its two states are left over. -/
theorem parseInto_error_keeps_unclosed :
    let n := Operation.after (.empty (.ofTexts ["ab"])) [.change (.parse "ab")]
    ∃ k, n.IsAllocated n.start ∧ parseInto "(b" n = (.error ⟨.unclosedGroup 0, 2, "(b"⟩, k) ∧
      k.size = n.size + 2 ∧ (∀ w, k.accepts w = n.accepts w) ∧
      ∀ symbols, Dfa.ofNfa k symbols = Dfa.ofNfa n symbols := by
  intro n
  have hstart : n.IsAllocated n.start := by decide +kernel
  have herror : (parseInto "(b" n).1 = .error ⟨.unclosedGroup 0, 2, "(b"⟩ := by decide +kernel
  have hsize : (parseInto "(b" n).2.size = n.size + 2 := by decide +kernel
  generalize hk : parseInto "(b" n = r at herror hsize ⊢
  obtain ⟨outcome, k⟩ := r
  cases herror
  obtain ⟨-, -, -, -, haccepts, hsubsets, -⟩ :=
    parseInto_error_keeps (.ofTexts ["ab"]) [.change (.parse "ab")] hstart hk
  exact ⟨k, hstart, rfl, hsize, haccepts, hsubsets⟩

end Regex

end RegexAutomata
