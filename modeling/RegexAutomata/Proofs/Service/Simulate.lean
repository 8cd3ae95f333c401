/-
Inputs that are tried.

The alphabet of a request may come from all of its inputs together, and the deterministic automaton is
built over that alphabet. Still each input is judged on its own: an entry of the answer does not
depend on the other inputs or on the alphabet, apart from the wording of a rejection.

* `Dfa.rejection_ne_outsideAlphabet` — no text over the alphabet is rejected for its code points;
* `Endpoint.member?_entry_eq` — entries with the same path and position agree up to the wording;
* `Simulation.Answers` — what a response says of the inputs of a value;
* `exists_content_of_status`, `answers_ofContent` — a successful response says this;
* `respond_simulate` — both for any two successful responses.
-/
import RegexAutomata.Proofs.Dfa.Trace
import RegexAutomata.Proofs.Regex.Widening
import RegexAutomata.Proofs.Service.Respond

namespace RegexAutomata

/-! ### Causes of rejection -/

namespace Dfa

/-- A text over the alphabet is not rejected for a code point that is no symbol. -/
theorem rejection_ne_outsideAlphabet {d : Dfa} {w : Text} (hw : ∀ c ∈ w, [c] ∈ d.alphabet) (q : Int)
    (position : Nat) (c : CodePoint) (i : Nat) :
    (d.traceFrom q position w).rejection ≠ some (.outsideAlphabet c, i) := by
  rcases ends_traceFrom (t := d.traceFrom q position w) rfl rfl with
    ⟨-, hend⟩ | ⟨e, he, -, hend⟩
  · rw [hend]
    split_ifs <;> simp
  · rw [hend, if_pos (hw e (List.mem_of_getElem? he))]
    simp

end Dfa

namespace Service

open Json (Value)
open Regex (Describes)

variable {settings settings' : Settings} {request request' : Request} {v : Value}

/-- The symbols of the alphabet that a value asks for are single code points. -/
theorem exists_eq_of_mem_alphabetIn {a : Symbol} (ha : a ∈ alphabetIn v) : ∃ c, a = [c] := by
  have hsingle {texts : List Text} (h : a ∈ Alphabet.ofTexts texts) : ∃ c, a = [c] := by
    obtain ⟨t, -, c, -, hc⟩ := Alphabet.mem_ofTexts.mp h
    exact ⟨c, hc⟩
  unfold alphabetIn at ha
  split at ha
  · exact hsingle ha
  · exact hsingle ha
  · exact hsingle ha

/-- An alphabet that is not given has all code points of the inputs. -/
theorem mem_alphabetIn_of_mem_inputs {inputs : List Text}
    (hinputs : Content.inputsOf (v.member? "inputs") = .ok inputs)
    (hderived : v.member? "alphabet" = none ∨ v.member? "alphabet" = some .null) {w : Text}
    (hw : w ∈ inputs) {c : CodePoint} (hc : c ∈ w) : [c] ∈ alphabetIn v := by
  have halphabet : alphabetIn v = .ofTexts [inputs.flatten] := by
    rw [← Content.codePoints_of_inputsOf hinputs]
    unfold alphabetIn
    rcases hderived with h | h <;> rw [h]
  rw [halphabet, Alphabet.ofTexts_flatten]
  exact Alphabet.mem_ofTexts.mpr ⟨w, hw, c, hc, rfl⟩

/-! ### Entries -/

namespace Endpoint

/-- The entry of an input. -/
def entry (d : Dfa) (w : Text) : Value := object (("input", .string w) :: trace (d.trace w))

/-- Whether an entry says that its input was accepted. -/
def isAccepted (entry : Value) : Bool :=
  match entry.member? "accepted" with
  | some (.bool b) => b
  | _ => false

variable (d d' : Dfa) (w : Text)

theorem input_entry : (entry d w).member? "input" = some (.string w) := rfl

theorem accepted_entry : (entry d w).member? "accepted" = some (.bool (d.accepts w)) := by
  rw [entry, trace, Dfa.accepts, Dfa.Trace.accepted]
  cases (d.trace w).rejection <;> rfl

theorem isAccepted_entry : isAccepted (entry d w) = d.accepts w := by
  rw [isAccepted, accepted_entry]

/-- The wording of a rejection is that of its cause. -/
theorem reason_entry : (entry d w).member? "rejection_reason" =
    (d.trace w).rejection.map fun rejection => .string rejection.1.message := by
  rw [entry, trace]
  cases (d.trace w).rejection <;> rfl

variable {d d' w}

/-- Entries with the same path and the same position of a rejection agree up to its wording. -/
theorem member?_entry_eq (hpath : (d.trace w).path = (d'.trace w).path)
    (hposition : (d.trace w).rejection.map Prod.snd = (d'.trace w).rejection.map Prod.snd)
    {name : Text} (hname : name ≠ "rejection_reason") :
    (entry d w).member? name = (entry d' w).member? name := by
  rw [entry, entry, trace, trace, hpath]
  cases hr : (d.trace w).rejection with
  | none =>
    rw [hr] at hposition
    rw [Option.map_eq_none_iff.mp hposition.symm]
  | some r =>
    rw [hr] at hposition
    obtain ⟨r', hr', hposition⟩ := Option.map_eq_some_iff.mp hposition.symm
    rw [hr']
    obtain ⟨cause, i⟩ := r
    obtain ⟨cause', j⟩ := r'
    obtain rfl : j = i := hposition
    -- the two lists of members differ in the one whose name is not asked for
    simp [object, Value.member?, List.lookup_cons, beq_eq_false_iff_ne.mpr hname]

end Endpoint

/-! ### Answers -/

section Answers

variable {content : Content} {n : Nfa}

theorem results_simulateBody (content : Content) (n : Nfa) :
    (Endpoint.simulateBody content n).member? "results" =
      some (.array (content.inputs.map (Endpoint.entry (Dfa.ofNfa n content.alphabet)))) := by
  have hmap : ((content.inputs.map fun w => (w, (Dfa.ofNfa n content.alphabet).trace w)).map
      fun tried => Endpoint.object (("input", .string tried.1) :: Endpoint.trace tried.2)) =
      content.inputs.map (Endpoint.entry (Dfa.ofNfa n content.alphabet)) := by
    rw [List.map_map]
    rfl
  rw [← hmap]
  rfl

theorem count_simulateBody (content : Content) (n : Nfa) :
    (Endpoint.simulateBody content n).member? "accepted_count" =
      some (Endpoint.count ((content.inputs.map
        (Endpoint.entry (Dfa.ofNfa n content.alphabet))).countP Endpoint.isAccepted)) := by
  have hcount : ((content.inputs.map fun w => (w, (Dfa.ofNfa n content.alphabet).trace w)).filter
      fun tried => tried.2.accepted).length =
      (content.inputs.map (Endpoint.entry (Dfa.ofNfa n content.alphabet))).countP
        Endpoint.isAccepted := by
    rw [← List.countP_eq_length_filter, List.countP_map, List.countP_map]
    refine List.countP_congr fun w _ => ?_
    rw [Function.comp_apply, Function.comp_apply, Endpoint.isAccepted_entry]
    rfl
  rw [← hcount]
  rfl

end Answers

/-- What a value asks to be tried, and what the answer says of it. -/
structure Simulation where
  value : Value
  regex : Text
  inputs : List Text
  body : Value
  entries : List Value

/-- A request asks for a simulation and the response has its answer, with one entry for each input
in their order, which tells whether the expression describes the input. -/
structure Simulation.Answers (x : Simulation) (settings : Settings) (request : Request) :
    Prop where
  value : readBody settings request.body = .ok x.value
  regex : x.value.member? "regex" = some (.string x.regex)
  inputs : (x.value.member? "inputs").getD (.array []) = .array (x.inputs.map .string)
  response : respond settings request = .json 200 x.body
  results : x.body.member? "results" = some (.array x.entries)
  input : x.entries.map (·.member? "input") = x.inputs.map fun w => some (.string w)
  accepted : ∀ (i : Nat) (w : Text) (e : Value), x.inputs[i]? = some w → x.entries[i]? = some e →
    ∃ b, e.member? "accepted" = some (.bool b) ∧
      (b = true ↔ Describes (alphabetIn x.value) x.regex w)
  count : x.body.member? "accepted_count" =
    some (Endpoint.count (x.entries.countP Endpoint.isAccepted))
  /-- if the alphabet comes from the inputs, it has all of their code points -/
  reason : x.value.member? "alphabet" = none ∨ x.value.member? "alphabet" = some .null →
    ∀ e ∈ x.entries, ∀ c,
      e.member? "rejection_reason" ≠ some (.string (Dfa.Rejection.outsideAlphabet c).message)

/-- The simulation that content asks for. -/
def Simulation.ofContent (v : Value) (content : Content) (n : Nfa) : Simulation where
  value := v
  regex := content.regex
  inputs := content.inputs
  body := Endpoint.simulateBody content n
  entries := content.inputs.map (Endpoint.entry (Dfa.ofNfa n content.alphabet))

/-- A value that is answered has content, and its expression has an automaton. -/
theorem exists_content_of_status (h : Posts settings .simulate v request)
    (hstatus : (respond settings request).status = 200) :
    ∃ content n, Content.ofValue settings v = .ok content ∧
      Regex.toNfa content.regex content.alphabet = .ok n ∧
      respond settings request = .json 200 (Endpoint.simulateBody content n) :=
  exists_automaton_of_status (fun _ => rfl) h hstatus

/-- What is answered to content. -/
theorem answers_ofContent {content : Content} {n : Nfa} (h : Posts settings .simulate v request)
    (hcontent : Content.ofValue settings v = .ok content)
    (hn : Regex.toNfa content.regex content.alphabet = .ok n)
    (hresponse : respond settings request = .json 200 (Endpoint.simulateBody content n)) :
    (Simulation.ofContent v content n).Answers settings request where
  value := h.body
  regex := (Content.read_of_ofValue hcontent).regex
  inputs := Content.getD_eq_of_inputsOf (Content.inputs_of_ofValue hcontent)
  response := hresponse
  results := results_simulateBody content n
  input := by
    rw [Simulation.ofContent, List.map_map]
    exact List.map_congr_left fun w _ => Endpoint.input_entry (.ofNfa n content.alphabet) w
  accepted i w e hw he := by
    have hw : content.inputs[i]? = some w := hw
    rw [Simulation.ofContent, List.getElem?_map, hw, Option.map_some, Option.some_inj] at he
    subst he
    refine ⟨_, Endpoint.accepted_entry _ w, ?_⟩
    have halphabet := (Content.read_of_ofValue hcontent).alphabet
    rw [Regex.accepts_ofNfa_iff_describes hn, halphabet]
    exact Iff.rfl
  count := count_simulateBody content n
  reason hderived e he c hreason := by
    obtain ⟨w, hw, rfl⟩ := List.mem_map.mp he
    rw [Endpoint.reason_entry] at hreason
    obtain ⟨⟨cause, i⟩, hrejection, hmessage⟩ := Option.map_eq_some_iff.mp hreason
    obtain rfl := Dfa.Rejection.message_injective (Value.string.inj hmessage)
    refine Dfa.rejection_ne_outsideAlphabet (fun c hc => ?_) Dfa.start 0 c i hrejection
    show [c] ∈ content.alphabet
    rw [(Content.read_of_ofValue hcontent).alphabet]
    exact mem_alphabetIn_of_mem_inputs (Content.inputs_of_ofValue hcontent) hderived hw hc

/-- Two successful responses, whatever the requests and the limits were: each has an entry for each
input that tells whether the expression describes it, and no input is rejected for its code points
if the alphabet comes from the inputs. If the expressions are the same, then an input of both has
entries in both that differ at most in the wording of a rejection. -/
theorem respond_simulate (hpath : request.target.path = Utf8.encode "/api/simulate/")
    (hstatus : (respond settings request).status = 200)
    (hpath' : request'.target.path = Utf8.encode "/api/simulate/")
    (hstatus' : (respond settings' request').status = 200) :
    ∃ x x' : Simulation, x.Answers settings request ∧ x'.Answers settings' request' ∧
      (x.regex = x'.regex → ∀ (i j : Nat) (w : Text), x.inputs[i]? = some w →
        x'.inputs[j]? = some w → ∃ e e', x.entries[i]? = some e ∧ x'.entries[j]? = some e' ∧
          ∀ name : Text, name ≠ "rejection_reason" → e.member? name = e'.member? name) := by
  have hroute : (Text.ofString "/api/simulate/", Endpoint.simulate) ∈ Endpoint.routes := by decide
  obtain ⟨v, hposts⟩ := exists_posts_of_status hroute hpath hstatus
  obtain ⟨v', hposts'⟩ := exists_posts_of_status hroute hpath' hstatus'
  obtain ⟨content, n, hcontent, hn, hresponse⟩ := exists_content_of_status hposts hstatus
  obtain ⟨content', n', hcontent', hn', hresponse'⟩ := exists_content_of_status hposts' hstatus'
  refine ⟨_, _, answers_ofContent hposts hcontent hn hresponse,
    answers_ofContent hposts' hcontent' hn' hresponse', ?_⟩
  intro hregex i j w hi hj
  refine ⟨Endpoint.entry (Dfa.ofNfa n content.alphabet) w,
    Endpoint.entry (Dfa.ofNfa n' content'.alphabet) w, ?_, ?_, ?_⟩
  · rw [Simulation.ofContent, List.getElem?_map]
    exact congrArg (Option.map _) hi
  · rw [Simulation.ofContent, List.getElem?_map]
    exact congrArg (Option.map _) hj
  -- both automata are built from the same expression, over alphabets of single code points
  · intro name hname
    have hregex : content.regex = content'.regex := hregex
    have hsingle := (Content.read_of_ofValue hcontent).alphabet
    have hsingle' := (Content.read_of_ofValue hcontent').alphabet
    rw [hregex] at hn
    obtain ⟨htrace, hrejection⟩ := Regex.trace_eq_of_toNfa
      (fun a ha => exists_eq_of_mem_alphabetIn (hsingle ▸ ha))
      (fun a ha => exists_eq_of_mem_alphabetIn (hsingle' ▸ ha)) hn hn' w
    exact Endpoint.member?_entry_eq htrace hrejection hname

/-- The code point `c` is a symbol of one alphabet only, and `ac` is in both lists of inputs. -/
theorem respond_simulate_star :
    let request (text : String) : Request :=
      ⟨⟨Utf8.encode "/api/simulate/", []⟩, "POST", Utf8.encode text⟩
    let given := request
      "\x7b\"regex\": \"(a*b)*\", \"inputs\": [\"ab\", \"ac\"], \"alphabet\": \"ab\"\x7d"
    let derived := request "\x7b\"regex\": \"(a*b)*\", \"inputs\": [\"ac\", \"b\"]\x7d"
    (respond {} given).status = 200 ∧ (respond {} derived).status = 200 ∧
      ∃ x x' : Simulation, x.Answers {} given ∧ x'.Answers {} derived ∧
        ∃ e e', x.entries[1]? = some e ∧ x'.entries[0]? = some e' ∧
          ∀ name : Text, name ≠ "rejection_reason" → e.member? name = e'.member? name := by
  intro request given derived
  let v : Value := .object
    [("regex", .string "(a*b)*"), ("inputs", .array [.string "ab", .string "ac"]),
      ("alphabet", .string "ab")]
  let v' : Value := .object
    [("regex", .string "(a*b)*"), ("inputs", .array [.string "ac", .string "b"])]
  have hread : readBody {} given.body = .ok v := by decide +kernel
  have hread' : readBody {} derived.body = .ok v' := by decide +kernel
  have hstatus : (respond {} given).status = 200 := by decide +kernel
  have hstatus' : (respond {} derived).status = 200 := by decide +kernel
  obtain ⟨x, x', hx, hx', hagree⟩ := respond_simulate rfl hstatus rfl hstatus'
  have hv : x.value = v := Except.ok.inj (hx.value.symm.trans hread)
  have hv' : x'.value = v' := Except.ok.inj (hx'.value.symm.trans hread')
  have hregex : x.regex = "(a*b)*" ∧ x'.regex = "(a*b)*" := by
    have h := hx.regex
    have h' := hx'.regex
    rw [hv] at h
    rw [hv'] at h'
    exact ⟨(Value.string.inj (Option.some.inj h)).symm, (Value.string.inj (Option.some.inj h')).symm⟩
  have hinputs : x.inputs = ["ab", "ac"] ∧ x'.inputs = ["ac", "b"] := by
    have h := hx.inputs
    have h' := hx'.inputs
    rw [hv] at h
    rw [hv'] at h'
    have hinj {l m : List Text} (h : Value.array (l.map .string) = .array (m.map .string)) :
        m = l :=
      (List.map_injective_iff.mpr (fun _ _ => Value.string.inj) (Value.array.inj h)).symm
    exact ⟨hinj (l := ["ab", "ac"]) h, hinj (l := ["ac", "b"]) h'⟩
  refine ⟨hstatus, hstatus', x, x', hx, hx', hagree (hregex.1.trans hregex.2.symm) 1 0 "ac" ?_ ?_⟩
  · rw [hinputs.1]
    rfl
  · rw [hinputs.2]
    rfl

end Service

end RegexAutomata
