/-
The content of a request.

* `decided_inputsOf`, `decided_alphabetOf` — each part of the content is decided by its own check;
* `decided_ofValue` — so the content is decided by the checks that all endpoints make first;
* `read_of_ofValue` — and what is read into it is what the checks to come are about.
-/
import RegexAutomata.Proofs.Service.Checks

namespace RegexAutomata

/-- Only the code points matter, not how they are split into texts. -/
theorem Alphabet.ofTexts_flatten (texts : List Text) :
    ofTexts [texts.flatten] = ofTexts texts := by
  refine SortedSet.ext fun a => ?_
  simp only [mem_ofTexts, List.mem_singleton, exists_eq_left, List.mem_flatten]
  constructor
  · rintro ⟨c, ⟨t, ht, hc⟩, rfl⟩
    exact ⟨t, ht, c, hc, rfl⟩
  · rintro ⟨t, ht, c, hc, rfl⟩
    exact ⟨c, ⟨t, ht, hc⟩, rfl⟩

namespace Service

open Json (Value)

variable {settings : Settings} {v : Value} {α β : Type}

theorem exists_of_bind_eq_ok {ε : Type} {x : Except ε α} {f : α → Except ε β} {b : β}
    (h : x >>= f = .ok b) : ∃ a, x = .ok a ∧ f a = .ok b := by
  cases x with
  | error e => cases h
  | ok a => exact ⟨a, rfl, h⟩

namespace Content

theorem texts?_map_string (texts : List Text) : texts? (texts.map .string) = some texts := by
  induction texts with
  | nil => rfl
  | cons t rest ih =>
    rw [List.map_cons, texts?, ih]
    rfl

theorem eq_map_of_texts? {items : List Value} {texts : List Text}
    (h : texts? items = some texts) : items = texts.map .string := by
  fun_induction texts? items generalizing texts with
  | case1 =>
    cases h
    rfl
  | case2 t rest ih =>
    obtain ⟨others, hrest, rfl⟩ := Option.map_eq_some_iff.mp h
    rw [ih hrest, List.map_cons]
  | case3 => cases h

theorem decided_inputsOf : Decided settings v [.inputs] (inputsOf (v.member? "inputs")) := by
  cases hv : v.member? "inputs" with
  | none => exact .next (.inl hv) (.passed [])
  | some u =>
    -- nothing but a list of texts passes
    have hbad (h : ∀ texts : List Text, u ≠ .array (texts.map .string)) :
        Decided settings v [.inputs] (.error .badInputs : Except Refusal (List Text)) := by
      refine .failed ?_ .inputs
      rintro (hnone | ⟨texts, htexts⟩)
      · rw [hv] at hnone
        cases hnone
      · rw [hv] at htexts
        exact h texts (Option.some.inj htexts)
    cases u with
    | array items =>
      rw [inputsOf]
      cases hitems : texts? items with
      | none =>
        refine hbad ?_
        rintro texts heq
        cases heq
        rw [texts?_map_string] at hitems
        cases hitems
      | some texts =>
        rw [eq_map_of_texts? hitems] at hv
        exact .next (.inr ⟨texts, hv⟩) (.passed texts)
    | _ => exact hbad fun texts heq => by cases heq

theorem listedAlphabet_map_string (t : Text) :
    listedAlphabet (t.map fun c => .string [c]) = .ok (.ofTexts [t]) := by
  rw [listedAlphabet, Alphabet.ofValues, Alphabet.symbolsOf_map_string]
  show Except.ok (SortedSet.ofList _) = .ok (SortedSet.ofList _)
  rw [List.flatMap_singleton]

theorem decided_listedAlphabet {items : List Value}
    (hv : v.member? "alphabet" = some (.array items)) :
    Decided settings v [.alphabet] (listedAlphabet items) := by
  cases hitems : Alphabet.symbolsOf items with
  | ok symbols =>
    obtain ⟨t, rfl⟩ := Alphabet.exists_text_of_symbolsOf hitems
    rw [listedAlphabet_map_string]
    exact .next (.inr (.inr (.inr ⟨t, hv⟩))) (.passed _)
  | error u =>
    have hlisted : listedAlphabet items = .error (.badSymbol u) := by
      rw [listedAlphabet, Alphabet.ofValues, hitems]
      rfl
    rw [hlisted]
    obtain ⟨t, after, hlist, hu⟩ := Alphabet.symbolsOf_eq_error_iff.mp hitems
    refine .failed ?_ (.symbol (hlist ▸ hv) hu)
    intro hpasses
    obtain ⟨s, rfl⟩ : ∃ s : Text, items = s.map fun c => .string [c] := by
      simpa [Check.Passes, hv] using hpasses
    rw [Alphabet.symbolsOf_map_string] at hitems
    cases hitems

theorem decided_alphabetOf (inputs : List Text) :
    Decided settings v [.alphabet] (alphabetOf inputs (v.member? "alphabet")) := by
  cases hv : v.member? "alphabet" with
  | none => exact .next (.inl hv) (.passed _)
  | some u =>
    cases u with
    | null => exact .next (.inr (.inl hv)) (.passed _)
    | string t =>
      rw [alphabetOf, listedAlphabet_map_string]
      exact .next (.inr (.inr (.inl ⟨t, hv⟩))) (.passed _)
    | array items => exact decided_listedAlphabet hv
    | _ => exact .failed (by simp [Check.Passes, hv]) (.alphabet (by simp [hv]))

/-- Inputs that are read are texts in a list, if there are any. -/
theorem getD_eq_of_inputsOf {given : Option Value} {inputs : List Text}
    (h : inputsOf given = .ok inputs) : given.getD (.array []) = .array (inputs.map .string) := by
  cases given with
  | none =>
    cases h
    rfl
  | some u =>
    cases u with
    | array items =>
      rw [inputsOf] at h
      cases hitems : texts? items with
      | none =>
        rw [hitems] at h
        cases h
      | some texts =>
        rw [hitems] at h
        cases h
        exact congrArg Value.array (eq_map_of_texts? hitems)
    | _ => cases h

theorem codePoints_of_inputsOf {given : Option Value} {inputs : List Text}
    (h : inputsOf given = .ok inputs) :
    (given.map Value.codePoints).getD [] = inputs.flatten := by
  have hcodes : (given.map Value.codePoints).getD [] =
      Value.codePoints (given.getD (.array [])) := by cases given <;> rfl
  rw [hcodes, getD_eq_of_inputsOf h]
  show (inputs.map Value.string).flatMap Value.text = _
  rw [List.flatMap_map]
  exact List.flatMap_id

theorem eq_ofTexts_of_listedAlphabet {items : List Value} {alphabet : Alphabet}
    (h : listedAlphabet items = .ok alphabet) :
    alphabet = .ofTexts [Value.codePoints (.array items)] := by
  cases hitems : Alphabet.symbolsOf items with
  | error u =>
    rw [listedAlphabet, Alphabet.ofValues, hitems] at h
    cases h
  | ok symbols =>
    obtain ⟨t, rfl⟩ := Alphabet.exists_text_of_symbolsOf hitems
    rw [listedAlphabet_map_string] at h
    cases h
    have hpoints : Value.codePoints (.array (t.map fun c => .string [c])) = t := by
      show (t.map fun c => Value.string [c]).flatMap Value.text = t
      rw [List.flatMap_map]
      exact List.flatMap_singleton' t
    rw [hpoints]

/-- An alphabet that was read is the one that the value asks for. -/
theorem eq_alphabetIn {inputs : List Text} {alphabet : Alphabet}
    (hinputs : inputsOf (v.member? "inputs") = .ok inputs)
    (halphabet : alphabetOf inputs (v.member? "alphabet") = .ok alphabet) :
    alphabet = alphabetIn v := by
  have hderived := codePoints_of_inputsOf hinputs
  unfold alphabetIn
  cases hv : v.member? "alphabet" with
  | none =>
    rw [hv] at halphabet
    cases halphabet
    rw [hderived, Alphabet.ofTexts_flatten]
  | some u =>
    rw [hv] at halphabet
    cases u with
    | null =>
      cases halphabet
      rw [hderived, Alphabet.ofTexts_flatten]
    | string t =>
      rw [alphabetOf, listedAlphabet_map_string] at halphabet
      cases halphabet
      rfl
    | array items => exact eq_ofTexts_of_listedAlphabet halphabet
    | _ => cases halphabet

/-- What the content of a request says about the value that it was read from. -/
structure Read (v : Value) (content : Content) : Prop where
  regex : v.member? "regex" = some (.string content.regex)
  alphabet : content.alphabet = alphabetIn v
  automaton : content.automaton = v.member? "automaton"

theorem ofValue_of_regex {regex : Text} (h : v.member? "regex" = some (.string regex)) :
    ofValue settings v =
      if settings.maxRegexLength < regex.length then .error (.regexTooLong settings.maxRegexLength)
      else
        inputsOf (v.member? "inputs") >>= fun inputs =>
          alphabetOf inputs (v.member? "alphabet") >>= fun alphabet =>
            .ok ⟨regex, inputs, alphabet, v.member? "automaton"⟩ := by
  cases v with
  | object members =>
    unfold ofValue
    rw [h]
    dsimp only
    split_ifs <;> rfl
  | _ => cases h

theorem ofValue_of_not_regex (hobject : Check.Passes settings v .object)
    (h : ¬Check.Passes settings v .regex) : ofValue settings v = .error .missingRegex := by
  obtain ⟨members, rfl⟩ := hobject
  unfold ofValue
  cases hregex : (Value.object members).member? "regex" with
  | none => rfl
  | some u =>
    cases u with
    | string t => exact absurd ⟨t, hregex⟩ h
    | _ => rfl

theorem ofValue_of_not_object (h : ¬Check.Passes settings v .object) :
    ofValue settings v = .error .notObject := by
  cases v with
  | object members => exact absurd ⟨members, rfl⟩ h
  | _ => rfl

/-- The checks that all endpoints make first, in their order. -/
def checks : List Check := [.object, .regex, .length, .inputs, .alphabet]

/-- The content of a request is decided by the checks that all endpoints make. -/
theorem decided_ofValue (settings : Settings) (v : Value) :
    Decided settings v checks (ofValue settings v) := by
  by_cases hobject : Check.Passes settings v .object
  · refine .next hobject ?_
    by_cases hregex : Check.Passes settings v .regex
    · refine .next hregex ?_
      obtain ⟨t, ht⟩ := hregex
      rw [ofValue_of_regex ht]
      have hlength : Check.Passes settings v .length ↔ ¬settings.maxRegexLength < t.length := by
        simp [Check.Passes, ht]
      split_ifs with hlong
      · exact .failed (by rwa [hlength, not_not]) .length
      · refine .next (hlength.mpr hlong) ?_
        exact decided_inputsOf.bind fun inputs _ => (decided_alphabetOf inputs).map _
    · rw [ofValue_of_not_regex hobject hregex]
      exact .failed hregex .regex
  · rw [ofValue_of_not_object hobject]
    exact .failed hobject .object

theorem read_of_ofValue {content : Content} (h : ofValue settings v = .ok content) :
    content.Read v := by
  obtain ⟨regex, hregex⟩ : Check.Passes settings v .regex :=
    (decided_ofValue settings v).exists_ok_iff.mp ⟨content, h⟩ .regex (by decide)
  rw [ofValue_of_regex hregex] at h
  split_ifs at h
  obtain ⟨inputs, hinputs, h⟩ := exists_of_bind_eq_ok h
  obtain ⟨alphabet, halphabet, h⟩ := exists_of_bind_eq_ok h
  cases h
  exact ⟨hregex, eq_alphabetIn hinputs halphabet, rfl⟩

/-- The inputs that are read are those of the value. -/
theorem inputs_of_ofValue {content : Content} (h : ofValue settings v = .ok content) :
    inputsOf (v.member? "inputs") = .ok content.inputs := by
  have hregex := (read_of_ofValue h).regex
  generalize content.regex = regex at hregex
  rw [ofValue_of_regex hregex] at h
  split_ifs at h
  obtain ⟨inputs, hinputs, h⟩ := exists_of_bind_eq_ok h
  obtain ⟨alphabet, -, h⟩ := exists_of_bind_eq_ok h
  cases h
  exact hinputs

end Content

end Service

end RegexAutomata
