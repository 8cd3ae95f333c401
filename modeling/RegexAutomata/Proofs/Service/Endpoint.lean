/-
The answers of the endpoints.

An endpoint that has good content still checks the expression. A drawing has bytes if the symbols of
the alphabet have, and these come from the value.

* `Json.Value.Encodable` — a value without surrogates;
* `encodable_drawing` — whatever is drawn of it has bytes;
* `decided_answer`, `decided_outcome` — what an endpoint makes of content and of a value is decided
  by its checks;
* `decided_outcome_of_passes` — which are the same for all endpoints, apart from one.
-/
import RegexAutomata.Proofs.Dot.Encodable
import RegexAutomata.Proofs.Service.Content
import RegexAutomata.Service.Endpoint

namespace RegexAutomata

/-! ### Values without surrogates -/

namespace Json.Value

/-- Every text in a value has bytes, also the names of members. -/
inductive Encodable : Value → Prop where
  | null : Encodable .null
  | bool (b : Bool) : Encodable (.bool b)
  | integer (n : Int) : Encodable (.integer n)
  | real (x : Binary64) : Encodable (.real x)
  | string {t : Text} : t.Encodable → Encodable (.string t)
  | array {items : List Value} : (∀ v ∈ items, Encodable v) → Encodable (.array items)
  | object {members : List (Text × Value)} : (∀ m ∈ members, m.1.Encodable) →
    (∀ m ∈ members, Encodable m.2) → Encodable (.object members)

@[simp] theorem encodable_string {t : Text} : (string t).Encodable ↔ t.Encodable :=
  ⟨fun | .string ht => ht, .string⟩

@[simp] theorem encodable_array {items : List Value} :
    (array items).Encodable ↔ ∀ v ∈ items, v.Encodable :=
  ⟨fun | .array hitems => hitems, .array⟩

@[simp] theorem encodable_object {members : List (Text × Value)} :
    (object members).Encodable ↔
      (∀ m ∈ members, m.1.Encodable) ∧ ∀ m ∈ members, m.2.Encodable :=
  ⟨fun | .object hnames hmembers => ⟨hnames, hmembers⟩, fun h => .object h.1 h.2⟩

theorem Encodable.member? {v u : Value} {name : Text} (hv : v.Encodable)
    (h : v.member? name = some u) : u.Encodable := by
  cases v with
  | object members => exact (encodable_object.mp hv).2 _ (Keyed.mem_of_lookup h)
  | _ => cases h

theorem Encodable.text {v : Value} (hv : v.Encodable) : v.text.Encodable := by
  cases v with
  | string t => exact encodable_string.mp hv
  | _ => exact Text.encodable_nil

theorem Encodable.codePoints {v : Value} (hv : v.Encodable) : v.codePoints.Encodable := by
  cases v with
  | array items => exact Text.encodable_flatMap fun u hu => (encodable_array.mp hv u hu).text
  | _ => exact hv.text

end Json.Value

namespace Service

open Json (Value)

variable {settings : Settings} {v : Value}

/-! ### Answers -/

namespace Endpoint

variable {content : Content}

/-- The checks that an endpoint makes of content. Only of drawings there are two to choose from. -/
def answerChecks : Endpoint → List Check
  | exportDot => [.automaton, .grammar]
  | _ => [.grammar]

/-- The checks of an endpoint, in their order. -/
def checks (endpoint : Endpoint) : List Check := Content.checks ++ endpoint.answerChecks

theorem decided_automaton (hcontent : content.Read v) :
    Decided settings v [.grammar] (automaton content) := by
  rw [automaton, hcontent.alphabet]
  cases hn : Regex.toNfa content.regex (alphabetIn v) with
  | ok n =>
    refine .next ?_ (.passed n)
    intro t ht
    rw [hcontent.regex] at ht
    cases ht
    exact Regex.exists_derives_of_toNfa hn
  | error e =>
    refine .failed ?_ (.grammar hcontent.regex hn)
    intro hgrammar
    obtain ⟨f, hf⟩ := hgrammar _ hcontent.regex
    rw [Regex.toNfa_of_derives hf] at hn
    cases hn

theorem decided_drawsNfa (hcontent : content.Read v) :
    Decided settings v [.automaton] (drawsNfa content.automaton) := by
  rw [hcontent.automaton]
  cases hv : v.member? "automaton" with
  | none => exact .next (.inl hv) (.passed false)
  | some u =>
    cases u with
    | string t =>
      rw [drawsNfa]
      split_ifs with hdfa hnfa
      · exact .next (.inr (.inr (hdfa ▸ hv))) (.passed false)
      · exact .next (.inr (.inl (hnfa ▸ hv))) (.passed true)
      · exact .failed (by simp [Check.Passes, hv, hdfa, hnfa]) .automaton
    | _ => exact .failed (by simp [Check.Passes, hv]) .automaton

theorem encodable_alphabetIn (hv : v.Encodable) : (alphabetIn v).Encodable := by
  have hderived : (((v.member? "inputs").map Value.codePoints).getD []).Encodable := by
    cases hinputs : v.member? "inputs" with
    | none => exact Text.encodable_nil
    | some u => exact (hv.member? hinputs).codePoints
  unfold alphabetIn
  split
  · exact Alphabet.encodable_ofTexts (by simpa using hderived)
  · exact Alphabet.encodable_ofTexts (by simpa using hderived)
  · next given _ hgiven =>
    exact Alphabet.encodable_ofTexts (by simpa using (hv.member? hgiven).codePoints)

theorem drawing_eq_ok {d : Dot.Drawing} (h : d.render.Encodable) :
    drawing d = .ok (.drawing d.render) := by
  rw [drawing, Utf8.firstSurrogates?_eq_none_iff.mpr h]

theorem toNfa_of_automaton {n : Nfa} (h : automaton content = .ok n) :
    Regex.toNfa content.regex content.alphabet = .ok n := by
  rw [automaton] at h
  cases hn : Regex.toNfa content.regex content.alphabet with
  | ok m =>
    rw [hn] at h
    cases h
    rfl
  | error e =>
    rw [hn] at h
    cases h

/-- A drawing of either automaton has bytes if the symbols of the alphabet have. -/
theorem encodable_drawing {n : Nfa} (halphabet : content.alphabet.Encodable)
    (hn : automaton content = .ok n) (nfaWanted : Bool) :
    (if nfaWanted then n.drawing else (Dfa.ofNfa n content.alphabet).drawing).render.Encodable := by
  obtain ⟨hnfa, hdfa⟩ := Regex.encodable_drawing_of_toNfa (toNfa_of_automaton hn) halphabet
  cases nfaWanted with
  | true => exact hnfa
  | false => exact hdfa

/-- What an endpoint makes of good content is decided by the checks that are left. -/
theorem decided_answer (hv : v.Encodable) (hcontent : content.Read v) (endpoint : Endpoint) :
    Decided settings v endpoint.answerChecks (endpoint.answer content) := by
  have hautomaton : Decided settings v [.grammar] (automaton content) := decided_automaton hcontent
  cases endpoint with
  | toNfa => exact hautomaton.map _
  | toDfa => exact hautomaton.map _
  | simulate => exact hautomaton.map _
  | exportDot =>
    refine (decided_drawsNfa hcontent).bind fun nfaWanted _ => ?_
    show Decided settings v ([.grammar] ++ []) (automaton content >>= _)
    refine hautomaton.bind fun n hn => ?_
    have halphabet : content.alphabet.Encodable := by
      rw [hcontent.alphabet]
      exact encodable_alphabetIn hv
    rw [drawing_eq_ok (encodable_drawing halphabet hn nfaWanted)]
    exact .passed _

/-- What an endpoint makes of a value. -/
def outcome (settings : Settings) (v : Value) (endpoint : Endpoint) : Except Refusal Answer :=
  Content.ofValue settings v >>= fun content => endpoint.answer content

/-- What an endpoint makes of a value is decided by its checks. -/
theorem decided_outcome (settings : Settings) (hv : v.Encodable) (endpoint : Endpoint) :
    Decided settings v endpoint.checks (outcome settings v endpoint) :=
  (Content.decided_ofValue settings v).bind fun _ hcontent =>
    decided_answer hv (Content.read_of_ofValue hcontent) endpoint

/-- All endpoints make the same checks, apart from the one which automaton to draw. -/
theorem decided_outcome_of_passes (hv : v.Encodable) {endpoint : Endpoint}
    (h : endpoint = .exportDot → Check.automaton.Passes settings v) :
    Decided settings v (Content.checks ++ [.grammar]) (outcome settings v endpoint) := by
  have hdecided := decided_outcome settings hv endpoint
  cases endpoint with
  | exportDot => exact hdecided.erase (h rfl)
  | _ => exact hdecided

end Endpoint

end Service

end RegexAutomata
