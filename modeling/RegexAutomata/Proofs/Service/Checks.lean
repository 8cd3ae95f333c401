/-
The checks of a request.

What the service makes of a value is decided by checks that are made one after the other, and the
first that fails is reported. `Check.Passes` says what a value must be like to pass a check, and
`Check.Reports` what is said of a value that does not pass.

* `Decided` — an outcome is decided by a list of checks: it is a success if the value passes them
  all, and otherwise the report of the first that it does not pass;
* `Decided.bind` — so are steps one after the other, by the checks of the steps;
* `Decided.erase` — a check that the value passes can be left out;
* `Decided.agree` — outcomes that the same checks decide are the same, up to the answer.
-/
import RegexAutomata.Proofs.Regex.Grammar
import RegexAutomata.Service.Content

namespace RegexAutomata

/-! ### Alphabets in values -/

namespace Json.Value

/-- A text as it is; another value has none. -/
def text : Value → Text
  | .string t => t
  | _ => []

/-- The code points of a text, or of the texts in a list. -/
def codePoints : Value → Text
  | .array items => items.flatMap text
  | v => v.text

end Json.Value

namespace Alphabet

open Json (Value)

theorem symbolOf?_eq_none_iff {v : Value} : symbolOf? v = none ↔ ∀ c, v ≠ .string [c] := by
  constructor
  · rintro h c rfl
    cases h
  · intro h
    unfold symbolOf?
    split
    · exact absurd rfl (h _)
    · rfl

theorem symbolsOf_map_string (t : Text) :
    symbolsOf (t.map fun c => .string [c]) = .ok (t.map ([·])) := by
  induction t with
  | nil => rfl
  | cons c rest ih =>
    rw [List.map_cons, symbolsOf, ih]
    rfl

/-- Values that are all symbols are texts of one code point. -/
theorem exists_text_of_symbolsOf {values : List Value} {symbols : List Symbol}
    (h : symbolsOf values = .ok symbols) : ∃ t : Text, values = t.map fun c => .string [c] := by
  induction values generalizing symbols with
  | nil => exact ⟨[], rfl⟩
  | cons v rest ih =>
    by_cases hv : ∀ c, v ≠ .string [c]
    · rw [symbolsOf, symbolOf?_eq_none_iff.mpr hv] at h
      cases h
    · push Not at hv
      obtain ⟨c, rfl⟩ := hv
      cases hrest : symbolsOf rest with
      | error u =>
        rw [symbolsOf, hrest] at h
        cases h
      | ok as =>
        obtain ⟨t, rfl⟩ := ih hrest
        exact ⟨c :: t, rfl⟩

/-- The value that is reported is the first that is no symbol. -/
theorem symbolsOf_eq_error_iff {values : List Value} {u : Value} :
    symbolsOf values = .error u ↔ ∃ (t : Text) (after : List Value),
      values = (t.map fun c => .string [c]) ++ u :: after ∧ ∀ c, u ≠ .string [c] := by
  constructor
  · intro h
    induction values with
    | nil => cases h
    | cons v rest ih =>
      by_cases hv : ∀ c, v ≠ .string [c]
      · rw [symbolsOf, symbolOf?_eq_none_iff.mpr hv] at h
        cases h
        exact ⟨[], rest, rfl, hv⟩
      · push Not at hv
        obtain ⟨c, rfl⟩ := hv
        cases hrest : symbolsOf rest with
        | ok as =>
          rw [symbolsOf, hrest] at h
          cases h
        | error w =>
          rw [symbolsOf, hrest] at h
          cases h
          obtain ⟨t, after, rfl, hu⟩ := ih hrest
          exact ⟨c :: t, after, rfl, hu⟩
  · rintro ⟨t, after, rfl, hu⟩
    induction t with
    | nil =>
      show symbolsOf (u :: after) = _
      rw [symbolsOf, symbolOf?_eq_none_iff.mpr hu]
    | cons c rest ih =>
      show symbolsOf (.string [c] :: ((rest.map fun c => .string [c]) ++ u :: after)) = _
      rw [symbolsOf, ih]
      rfl

end Alphabet

namespace Service

open Json (Value)
open Regex (Derives maxDepth)

/-! ### Checks -/

/-- The alphabet that a value asks for: the given one, or else that of its inputs. -/
def alphabetIn (v : Value) : Alphabet :=
  match v.member? "alphabet" with
  | none | some .null => .ofTexts [((v.member? "inputs").map Value.codePoints).getD []]
  | some given => .ofTexts [given.codePoints]

inductive Check where
  | object
  | regex
  | length
  | inputs
  | alphabet
  | automaton
  | grammar
deriving DecidableEq

/-- What a value must be like to pass a check. A check of the expression has nothing to object to if
there is none. -/
def Check.Passes (settings : Settings) (v : Value) : Check → Prop
  | object => ∃ members, v = .object members
  | regex => ∃ t, v.member? "regex" = some (.string t)
  | length => ∀ t, v.member? "regex" = some (.string t) → t.length ≤ settings.maxRegexLength
  | inputs => v.member? "inputs" = none ∨
    ∃ texts : List Text, v.member? "inputs" = some (.array (texts.map .string))
  | alphabet => v.member? "alphabet" = none ∨ v.member? "alphabet" = some .null ∨
    (∃ t, v.member? "alphabet" = some (.string t)) ∨
    ∃ t : Text, v.member? "alphabet" = some (.array (t.map fun c => .string [c]))
  | automaton => v.member? "automaton" = none ∨ v.member? "automaton" = some (.string "nfa") ∨
    v.member? "automaton" = some (.string "dfa")
  | grammar => ∀ t, v.member? "regex" = some (.string t) →
    ∃ e, Derives (alphabetIn v) .union maxDepth t e

/-- What is said of a value that does not pass a check. Of a list that is no alphabet, the first
value that is no symbol is shown. -/
inductive Check.Reports (settings : Settings) (v : Value) : Check → Refusal → Prop where
  | object : Reports settings v .object .notObject
  | regex : Reports settings v .regex .missingRegex
  | length : Reports settings v .length (.regexTooLong settings.maxRegexLength)
  | inputs : Reports settings v .inputs .badInputs
  | alphabet : (∀ items, v.member? "alphabet" ≠ some (.array items)) →
    Reports settings v .alphabet .badAlphabet
  | symbol {t : Text} {u : Value} {after : List Value} :
    v.member? "alphabet" = some (.array ((t.map fun c => .string [c]) ++ u :: after)) →
    (∀ c, u ≠ .string [c]) → Reports settings v .alphabet (.badSymbol u)
  | automaton : Reports settings v .automaton .badAutomaton
  | grammar {t : Text} {e : Regex.ParseError} : v.member? "regex" = some (.string t) →
    Regex.toNfa t (alphabetIn v) = .error e → Reports settings v .grammar (.parse e)

variable {settings : Settings} {v : Value} {α β : Type}

namespace Check.Reports

variable {check : Check} {r s : Refusal}

/-- There is only one thing to say. -/
theorem unique (h : check.Reports settings v r) (h' : check.Reports settings v s) : r = s := by
  cases h with
  | alphabet hitems =>
    cases h' with
    | alphabet => rfl
    | symbol hlist => exact absurd hlist (hitems _)
  | symbol hlist hu =>
    cases h' with
    | alphabet hitems => exact absurd hlist (hitems _)
    | symbol hlist' hu' =>
      -- both values are the first of the list that is no symbol
      have hitems := Option.some.inj (hlist.symm.trans hlist')
      rw [Value.array.injEq] at hitems
      have hfirst := Alphabet.symbolsOf_eq_error_iff.mpr ⟨_, _, hitems, hu'⟩
      rw [Alphabet.symbolsOf_eq_error_iff.mpr ⟨_, _, rfl, hu⟩] at hfirst
      cases hfirst
      rfl
  | grammar ht he =>
    cases h' with
    | grammar ht' he' =>
      rw [ht] at ht'
      cases ht'
      rw [he] at he'
      cases he'
      rfl
  | _ =>
    cases h'
    rfl

end Check.Reports

/-! ### Outcomes that checks decide -/

/-- Checks made one after the other decide an outcome: if the value passes all of them it is a
success, and otherwise the report of the first check that the value does not pass. -/
inductive Decided (settings : Settings) (v : Value) : List Check → Except Refusal α → Prop where
  | passed (a : α) : Decided settings v [] (.ok a)
  | failed {check : Check} {rest : List Check} {r : Refusal} : ¬check.Passes settings v →
    check.Reports settings v r → Decided settings v (check :: rest) (.error r)
  | next {check : Check} {rest : List Check} {x : Except Refusal α} : check.Passes settings v →
    Decided settings v rest x → Decided settings v (check :: rest) x

namespace Decided

variable {check : Check} {checks more : List Check} {x : Except Refusal α} {y : Except Refusal β}

/-- One step after another, where the second makes its own checks. -/
theorem bind {f : α → Except Refusal β} (h : Decided settings v checks x)
    (hf : ∀ a, x = .ok a → Decided settings v more (f a)) :
    Decided settings v (checks ++ more) (x >>= f) := by
  induction h with
  | passed a => exact hf a rfl
  | failed hpasses hreports => exact .failed hpasses hreports
  | next hpasses _ ih => exact .next hpasses (ih hf)

theorem map (f : α → β) (h : Decided settings v checks x) :
    Decided settings v checks (x >>= fun a => .ok (f a)) := by
  have hbind : Decided settings v (checks ++ []) (x >>= fun a => .ok (f a)) :=
    h.bind fun a _ => passed (f a)
  rwa [List.append_nil] at hbind

/-- A success means that the value passes all checks. -/
theorem exists_ok_iff (h : Decided settings v checks x) :
    (∃ a, x = .ok a) ↔ ∀ check ∈ checks, check.Passes settings v := by
  induction h with
  | passed a => exact ⟨fun _ _ hcheck => absurd hcheck List.not_mem_nil, fun _ => ⟨a, rfl⟩⟩
  | failed hpasses =>
    constructor
    · rintro ⟨a, ha⟩
      cases ha
    · intro hall
      exact absurd (hall _ List.mem_cons_self) hpasses
  | next hpasses _ ih => rw [ih, List.forall_mem_cons, and_iff_right hpasses]

/-- A refusal is the report of the first check that the value does not pass. -/
theorem exists_first_of_error {r : Refusal} (h : Decided settings v checks x)
    (hx : x = .error r) : ∃ before check after, checks = before ++ check :: after ∧
      (∀ c ∈ before, c.Passes settings v) ∧ ¬check.Passes settings v ∧
        check.Reports settings v r := by
  induction h with
  | passed => cases hx
  | @failed check rest _ hpasses hreports =>
    cases hx
    exact ⟨[], check, rest, rfl, fun _ hc => absurd hc List.not_mem_nil, hpasses, hreports⟩
  | @next check _ _ hpasses _ ih =>
    obtain ⟨before, first, after, rfl, hbefore, hfirst⟩ := ih hx
    exact ⟨check :: before, first, after, rfl, List.forall_mem_cons.mpr ⟨hpasses, hbefore⟩, hfirst⟩

/-- A check that the value passes decides nothing. -/
theorem erase (h : Decided settings v checks x) (hpasses : check.Passes settings v) :
    Decided settings v (checks.erase check) x := by
  induction h with
  | passed a => exact passed a
  | @failed c rest _ hc hreports =>
    have hne : c ≠ check := by
      rintro rfl
      exact hc hpasses
    rw [List.erase_cons_tail (by simpa using hne)]
    exact failed hc hreports
  | @next c rest _ hc hrest ih =>
    by_cases heq : c = check
    · rwa [heq, List.erase_cons_head]
    · rw [List.erase_cons_tail (by simpa using heq)]
      exact next hc ih

/-- Outcomes that the same checks decide are both a success or the same refusal. -/
theorem agree (h : Decided settings v checks x) (h' : Decided settings v checks y) :
    (∃ a b, x = .ok a ∧ y = .ok b) ∨ ∃ r, x = .error r ∧ y = .error r := by
  induction h with
  | passed a =>
    cases h' with
    | passed b => exact .inl ⟨a, b, rfl, rfl⟩
  | failed hpasses hreports =>
    cases h' with
    | failed _ hreports' =>
      cases hreports.unique hreports'
      exact .inr ⟨_, rfl, rfl⟩
    | next hpasses' => exact absurd hpasses' hpasses
  | next hpasses _ ih =>
    cases h' with
    | failed hpasses' => exact absurd hpasses hpasses'
    | next _ hrest => exact ih hrest

end Decided

end Service

end RegexAutomata
