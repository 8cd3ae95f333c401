/-
The dictionaries in an answer.

An answer with both automata has them in dictionary form, as values. They are read in the same way,
and either accepts exactly what the expression of the request describes.

* `Dictionary.ofValue?_dictionary` — a dictionary is read back from its value;
* `exists_holdsAutomata` — the automata of an answer accept what the expression describes;
* `decode_lossless` — automata after any operations and those of the subset construction are read
  back from their dictionaries, also from those of an answer.
-/
import RegexAutomata.Proofs.Dictionary.Language
import RegexAutomata.Proofs.Service.Simulate

namespace RegexAutomata

open Json (Value)

/-! ### Reading values -/

namespace Dictionary

def readText? : Value → Option Text
  | .string t => some t
  | _ => none

def readTexts? : Value → Option (List Text)
  | .array items => items.mapM readText?
  | _ => none

def readRow? : Text × Value → Option (Symbol × List Text)
  | (a, v) => do return (a, ← readTexts? v)

def readEntry? : Text × Value → Option (Text × List (Symbol × List Text))
  | (q, .object rows) => do return (q, ← rows.mapM readRow?)
  | _ => none

def readTransitions? : Value → Option (List (Text × List (Symbol × List Text)))
  | .object entries => entries.mapM readEntry?
  | _ => none

/-- The dictionary that a value holds. -/
def ofValue? (v : Value) : Option Dictionary := do
  let states ← readTexts? (← v.member? "states")
  let alphabet ← readTexts? (← v.member? "alphabet")
  let transitions ← readTransitions? (← v.member? "transitions")
  let start ← readText? (← v.member? "startingState")
  let accepting ← readTexts? (← v.member? "acceptingStates")
  return ⟨states, alphabet, transitions, start, accepting⟩

theorem readTexts?_texts (items : List Text) :
    readTexts? (Service.Endpoint.texts items) = some items := by
  have hread (t : Text) : readText? (.string t) = some t := rfl
  exact mapM_map hread items

theorem readTransitions?_transitions (d : Dictionary) :
    readTransitions? (Service.Endpoint.transitions d) = some d.transitions := by
  have hrow (row : Symbol × List Text) :
      readRow? (row.1, Service.Endpoint.texts row.2) = some row := by
    rw [readRow?, readTexts?_texts]
    rfl
  refine mapM_map (fun entry => ?_) d.transitions
  show (do return (entry.1, ← (List.map _ entry.2).mapM readRow?)) = some entry
  rw [mapM_map hrow]
  rfl

/-- The value of a dictionary has all of it. -/
theorem ofValue?_dictionary (d : Dictionary) :
    ofValue? (Service.Endpoint.dictionary d) = some d := by
  show (do
    let states ← readTexts? (Service.Endpoint.texts d.states)
    let alphabet ← readTexts? (Service.Endpoint.texts d.alphabet)
    let transitions ← readTransitions? (Service.Endpoint.transitions d)
    let accepting ← readTexts? (Service.Endpoint.texts d.accepting)
    return Dictionary.mk states alphabet transitions d.start accepting) = some d
  rw [readTexts?_texts, readTexts?_texts, readTransitions?_transitions, readTexts?_texts]
  rfl

end Dictionary

/-- The automaton that a value in dictionary form stands for. -/
def FiniteAutomaton.ofValue? (v : Value) : Option FiniteAutomaton :=
  (Dictionary.ofValue? v).bind Dictionary.decode

theorem FiniteAutomaton.ofValue?_dictionary (d : Dictionary) :
    ofValue? (Service.Endpoint.dictionary d) = d.decode := by
  rw [ofValue?, Dictionary.ofValue?_dictionary]
  rfl

namespace Service

open Dictionary (Regular)
open Regex (Describes)

/-! ### Answers -/

/-- An answer has automata that are read from it, each of which accepts the texts that an expression
over an alphabet describes. -/
structure HoldsAutomata (body : Value) (alphabet : Alphabet) (regex : Text)
    (g h : FiniteAutomaton) : Prop where
  nfa : (body.member? "nfa").bind FiniteAutomaton.ofValue? = some g
  dfa : (body.member? "dfa").bind FiniteAutomaton.ofValue? = some h
  accepts_nfa : ∀ w, g.Accepts w ↔ Describes alphabet regex w
  accepts_dfa : ∀ w, h.Accepts w ↔ Describes alphabet regex w

/-- The automata of an expression over single code points are held by its answer. -/
theorem exists_holdsAutomata {content : Content} {n : Nfa}
    (hn : Regex.toNfa content.regex content.alphabet = .ok n)
    (hsingle : ∀ a ∈ content.alphabet, ∃ c, a = [c]) :
    ∃ g h, HoldsAutomata (Endpoint.dfaBody content n) content.alphabet content.regex g h := by
  have hsound := (Regex.sound_of_toNfa hn).wellFormed
  have htidy : n.Tidy := by
    rw [← Regex.after_eq_of_toNfa hn]
    exact Nfa.tidy_after content.alphabet _
  have hepsilon : epsilon ∉ content.alphabet := by
    intro hmem
    obtain ⟨c, hc⟩ := hsingle _ hmem
    cases hc
  obtain ⟨g, hg, hgraph⟩ := htidy.decode_toDictionary
  obtain ⟨h, hh, hgraph'⟩ := Dfa.decode_toDictionary content.alphabet hsound
  refine ⟨g, h, ?_, ?_, fun w => ?_, fun w => ?_⟩
  · show FiniteAutomaton.ofValue? (Endpoint.dictionary n.toDictionary) = some g
    rw [FiniteAutomaton.ofValue?_dictionary, hg]
  · show FiniteAutomaton.ofValue?
      (Endpoint.dictionary (Dfa.ofNfa n content.alphabet).toDictionary) = some h
    rw [FiniteAutomaton.ofValue?_dictionary, hh]
  · rw [hgraph.accepts_iff hsound, Regex.describes_iff_accepts hn]
  · rw [hgraph'.accepts_iff (Dfa.next?_epsilon_ofNfa hsound hepsilon),
      Regex.accepts_ofNfa_iff_describes hn]

/-- One reader for both kinds of automata: an automaton after any operations is read back from its
dictionary form, with its states, alphabet, start, final state and edges, and so is its subset
automaton over any alphabet, with its moves and accepting states. Both forms have the targets of
each state and symbol in strictly ascending order of their numbers. In a successful answer with both
automata, what is read accepts exactly the texts that the expression of the request describes. -/
theorem decode_lossless :
    (∀ (alphabet : Alphabet) (ops : List Nfa.Operation),
      let n := Nfa.Operation.after (.empty alphabet) ops
      Regular n.toDictionary ∧ ∃ g, n.toDictionary.decode = some g ∧ n.IsGraph g) ∧
    (∀ (alphabet symbols : Alphabet) (ops : List Nfa.Operation),
      let d := Dfa.ofNfa (Nfa.Operation.after (.empty alphabet) ops) symbols
      Regular d.toDictionary ∧ ∃ g, d.toDictionary.decode = some g ∧ d.IsGraph g) ∧
    ∀ (settings : Settings) (request : Request),
      request.target.path = Utf8.encode "/api/regex-to-dfa/" →
      (respond settings request).status = 200 →
      ∃ v regex body, readBody settings request.body = .ok v ∧
        v.member? "regex" = some (.string regex) ∧ respond settings request = .json 200 body ∧
        ∃ g h, HoldsAutomata body (alphabetIn v) regex g h := by
  refine ⟨fun alphabet ops => ?_, fun alphabet symbols ops => ?_, fun settings request => ?_⟩
  · have htidy := Nfa.tidy_after alphabet ops
    exact ⟨htidy.regular_toDictionary, htidy.decode_toDictionary⟩
  · have hn := (Nfa.sound_after alphabet ops).wellFormed
    exact ⟨Dfa.regular_toDictionary symbols hn, Dfa.decode_toDictionary symbols hn⟩
  · intro hpath hstatus
    have hroute : (Text.ofString "/api/regex-to-dfa/", Endpoint.toDfa) ∈ Endpoint.routes := by
      decide
    obtain ⟨v, hposts⟩ := exists_posts_of_status hroute hpath hstatus
    obtain ⟨content, n, hcontent, hn, hresponse⟩ :=
      exists_automaton_of_status (fun _ => rfl) hposts hstatus
    have hread := Content.read_of_ofValue hcontent
    refine ⟨v, content.regex, _, hposts.body, hread.regex, hresponse, ?_⟩
    rw [← hread.alphabet]
    exact exists_holdsAutomata hn fun a ha => exists_eq_of_mem_alphabetIn (hread.alphabet ▸ ha)

/-- The automata of `(a*b)*` in an answer. -/
theorem decode_lossless_star_of_star :
    let request : Request := ⟨⟨Utf8.encode "/api/regex-to-dfa/", []⟩, "POST",
      Utf8.encode "\x7b\"regex\": \"(a*b)*\", \"alphabet\": \"ab\"\x7d"⟩
    (respond {} request).status = 200 ∧ ∃ body, respond {} request = .json 200 body ∧
      ∃ g h, HoldsAutomata body (.ofTexts ["ab"]) "(a*b)*" g h := by
  intro request
  let v : Value := .object [("regex", .string "(a*b)*"), ("alphabet", .string "ab")]
  have hread : readBody {} request.body = .ok v := by decide +kernel
  have hstatus : (respond {} request).status = 200 := by decide +kernel
  obtain ⟨-, -, hanswered⟩ := decode_lossless
  obtain ⟨u, regex, body, hu, hregex, hbody, g, h, hholds⟩ := hanswered {} request rfl hstatus
  obtain rfl : v = u := Except.ok.inj (hread.symm.trans hu)
  obtain rfl : "(a*b)*" = regex := Value.string.inj (Option.some.inj hregex)
  exact ⟨hstatus, body, hbody, g, h, hholds⟩

end Service

end RegexAutomata
