/-
A larger alphabet does not change what an expression means.

The alphabet of an automaton is often that of the texts that are at hand, and so it gets larger with
them. Two readings of the same text, over an alphabet and over a larger one, go side by side until
the smaller alphabet lacks a symbol.

* `Expr.toNfa_withAlphabet`, `Dfa.ofNfa_widen` — the automata are the same, up to the alphabet that
  they name, since a new symbol leads nowhere;
* `Dfa.traceFrom_withAlphabet` — so are the traces, up to the cause of a rejection;
* `Scanner.run_widen` — where the two readings part;
* `toNfa_widen` — all of this for the automata and the errors of an expression.
-/
import RegexAutomata.Proofs.Dfa.Completion
import RegexAutomata.Proofs.Regex.Trace
import RegexAutomata.Proofs.Regex.Viable

namespace RegexAutomata

/-! ### Automata -/

namespace Nfa

variable {n : Nfa} {B : Alphabet}

theorem WellFormed.withAlphabet (h : n.WellFormed) (B : Alphabet) :
    WellFormed { n with alphabet := B } :=
  ⟨h.isAllocated, h.hasIncoming_iff, h.hasOutgoing_iff, h.mem_remembered⟩

theorem startStates_withAlphabet (h : n.WellFormed) (B : Alphabet) :
    startStates { n with alphabet := B } = n.startStates := by
  refine SortedSet.ext fun q => ?_
  rw [mem_startStates (h.withAlphabet B), mem_startStates h]
  exact Iff.rfl

theorem step_withAlphabet (h : n.WellFormed) (B : Alphabet) (s : StateSet) (a : Symbol) :
    step { n with alphabet := B } s a = n.step s a := by
  refine SortedSet.ext fun q => ?_
  rw [mem_step (h.withAlphabet B), mem_step h]
  exact Iff.rfl

/-- A symbol outside of the alphabet leads nowhere. -/
theorem Sound.isEmpty_step (h : n.Sound) {a : Symbol} (ha : a ≠ epsilon) (hnot : a ∉ n.alphabet)
    (s : StateSet) : (n.step s a).isEmpty = true := by
  rw [SortedSet.isEmpty_iff]
  refine SortedSet.ext fun q => ?_
  rw [mem_step h.wellFormed]
  constructor
  · rintro ⟨p, -, r, he, -⟩
    rcases h.labelsKnown he with he | he
    · exact absurd he ha
    · exact absurd he hnot
  · intro hq
    exact absurd hq (SortedSet.not_mem_empty q)

end Nfa

/-- The elements of a set that are in a smaller one are those of the smaller one, in the same
order. -/
theorem SortedSet.filter_toList {α : Type} [DecidableEq α] [Ord α] [Std.TransOrd α]
    [Std.LawfulEqOrd α] {s t : SortedSet α} (h : ∀ a ∈ s, a ∈ t) :
    t.toList.filter (· ∈ s) = s.toList := by
  have heq : (⟨t.toList.filter (· ∈ s), t.ascending.filter _⟩ : SortedSet α) = s := by
    refine SortedSet.ext fun a => ?_
    rw [SortedSet.mem_iff, List.mem_filter, decide_eq_true_eq]
    constructor
    · exact fun ha => ha.2
    · exact fun ha => ⟨h a ha, ha⟩
  exact congrArg SortedSet.toList heq

namespace Dfa

variable {n : Nfa} {B : Alphabet}

/-- The subset automaton over a larger alphabet has the same moves: it numbers the same sets in the
same order, since the new symbols are skipped. -/
theorem ofNfa_widen (hn : n.Sound) (hB : epsilon ∉ B) (hsub : ∀ a ∈ n.alphabet, a ∈ B) :
    ofNfa { n with alphabet := B } B = { ofNfa n n.alphabet with alphabet := B } := by
  have hwell := hn.wellFormed
  have hwide : Subsets.complete { n with alphabet := B } B.toList =
      Subsets.complete n B.toList := by
    refine Subsets.complete_eq_of_step_eq hwell (Nat.le_refl _) (Nat.le_refl _) ?_ ?_
    · rw [Subsets.initial, Subsets.initial, Nfa.startStates_withAlphabet hwell]
    · exact Subsets.step_eq_of_moves_eq (Nfa.step_withAlphabet hwell B) B.toList
  have hnarrow : Subsets.complete n B.toList = Subsets.complete n n.alphabet.toList := by
    rw [← SortedSet.filter_toList hsub]
    refine Subsets.complete_filter hwell fun a ha hkeep s => hn.isEmpty_step ?_ ?_ s
    · rintro rfl
      exact hB ha
    · simpa using hkeep
  rw [ofNfa, ofNfa, hwide, hnarrow]

/-- The alphabet that an automaton names only makes a difference to the cause of a rejection. -/
theorem traceFrom_withAlphabet (d : Dfa) (B : Alphabet) (q : Int) (position : Nat) (w : Text) :
    (traceFrom { d with alphabet := B } q position w).path = (d.traceFrom q position w).path ∧
      (traceFrom { d with alphabet := B } q position w).rejection.map Prod.snd =
        (d.traceFrom q position w).rejection.map Prod.snd := by
  induction w generalizing q position with
  | nil =>
    rw [traceFrom, traceFrom]
    exact ⟨rfl, rfl⟩
  | cons c w ih =>
    have hnext : next? { d with alphabet := B } q [c] = d.next? q [c] := rfl
    rw [traceFrom, traceFrom, hnext]
    cases d.next? q [c] with
    | none => exact ⟨rfl, rfl⟩
    | some r =>
      obtain ⟨hpath, hrejection⟩ := ih r (position + 1)
      exact ⟨congrArg (_ :: ·) hpath, hrejection⟩

theorem Trace.accepted_eq {t t' : Trace}
    (h : t.rejection.map Prod.snd = t'.rejection.map Prod.snd) : t.accepted = t'.accepted := by
  have hnone := congrArg Option.isNone h
  rwa [Option.isNone_map, Option.isNone_map] at hnone

end Dfa

namespace Regex

variable {A B : Alphabet} {regex : Text} {n : Nfa}

/-- What is derived over an alphabet is derived over any other one that has its literals. -/
theorem Derives.widen (hsub : ∀ c, isOperator c = false → [c] ∈ A → [c] ∈ B) {x : Category}
    {k : Nat} {t : Text} {e : Expr} (h : Derives A x k t e) : Derives B x k t e := by
  induction h with
  | literal hc halphabet => exact .literal hc (hsub _ hc halphabet)
  | group _ ih => exact .group ih
  | symbol _ ih => exact .symbol ih
  | star _ ih => exact .star ih
  | kleene _ ih => exact .kleene ih
  | concat _ _ ihe ihf => exact .concat ihe ihf
  | alternative _ ih => exact .alternative ih
  | union _ _ ihe ihf => exact .union ihe ihf

/-- The states and edges of an expression do not depend on the alphabet. -/
theorem Expr.toNfa_withAlphabet (e : Expr) (A B : Alphabet) :
    e.toNfa B = { e.toNfa A with alphabet := B } := by
  rw [toNfa, toNfa, compile_eq_beside, compile_eq_beside e (.empty A)]
  rfl

theorem toNfa_widen_of_ok (hsub : ∀ c, isOperator c = false → [c] ∈ A → [c] ∈ B)
    (h : toNfa regex A = .ok n) : toNfa regex B = .ok { n with alphabet := B } := by
  obtain ⟨e, he⟩ := exists_derives_of_toNfa h
  have hn := eq_toNfa_of_derives h he
  subst hn
  rw [toNfa_of_derives (he.widen hsub), ← e.toNfa_withAlphabet A B]
  rfl

/-- The traces of a text over two alphabets are the same up to the causes of rejection, if there is
an automaton over both. -/
theorem trace_eq_of_toNfa {m : Nfa} (hA : ∀ a ∈ A, ∃ c, a = [c]) (hB : ∀ a ∈ B, ∃ c, a = [c])
    (hn : toNfa regex A = .ok n) (hm : toNfa regex B = .ok m) (w : Text) :
    ((Dfa.ofNfa n A).trace w).path = ((Dfa.ofNfa m B).trace w).path ∧
      ((Dfa.ofNfa n A).trace w).rejection.map Prod.snd =
        ((Dfa.ofNfa m B).trace w).rejection.map Prod.snd := by
  -- over the symbols of both alphabets, both automata are the same one
  have hsubA (a : Symbol) (ha : a ∈ A) : a ∈ A ∪ B := SortedSet.mem_union.mpr (.inl ha)
  have hsubB (a : Symbol) (ha : a ∈ B) : a ∈ A ∪ B := SortedSet.mem_union.mpr (.inr ha)
  have hepsilon : epsilon ∉ A ∪ B := by
    intro h
    rcases SortedSet.mem_union.mp h with h | h
    · obtain ⟨c, hc⟩ := hA epsilon h
      cases hc
    · obtain ⟨c, hc⟩ := hB epsilon h
      cases hc
  have hnm : { n with alphabet := A ∪ B } = { m with alphabet := A ∪ B } := by
    have hn' := toNfa_widen_of_ok (B := A ∪ B) (fun c _ => hsubA [c]) hn
    rw [toNfa_widen_of_ok (fun c _ => hsubB [c]) hm] at hn'
    exact (Except.ok.inj hn').symm
  have hn' := Dfa.ofNfa_widen (sound_of_toNfa hn) hepsilon (alphabet_of_toNfa hn ▸ hsubA)
  have hm' := Dfa.ofNfa_widen (sound_of_toNfa hm) hepsilon (alphabet_of_toNfa hm ▸ hsubB)
  rw [alphabet_of_toNfa hn, hnm] at hn'
  rw [alphabet_of_toNfa hm, hn'] at hm'
  have htraceA := (Dfa.ofNfa n A).traceFrom_withAlphabet (A ∪ B) Dfa.start 0 w
  have htraceB := (Dfa.ofNfa m B).traceFrom_withAlphabet (A ∪ B) Dfa.start 0 w
  rw [hm'] at htraceA
  exact ⟨htraceA.1.symm.trans htraceB.1, htraceA.2.symm.trans htraceB.2⟩

/-! ### Errors -/

namespace Scanner

variable {s : Scanner} {i j : Nat} {c : CodePoint} {t : Text} {cause : Cause}

/-- A code point that one alphabet has as a literal and another one has not. -/
def Lacks (A B : Alphabet) (c : CodePoint) : Prop :=
  isOperator c = false ∧ [c] ∈ B ∧ [c] ∉ A

theorem symbol_widen (hsub : ∀ a ∈ A, a ∈ B) (s : Scanner) (i : Nat) (c : CodePoint) :
    s.symbol A i c = s.symbol B i c ∨
      (Lacks A B c ∧ s.symbol A i c = .error (.notInAlphabet c) ∧
        ∃ s', s.symbol B i c = .ok s') := by
  rw [symbol, symbol]
  by_cases hopen : c = openGroup
  · rw [if_pos hopen, if_pos hopen]
    exact .inl rfl
  · rw [if_neg hopen, if_neg hopen]
    by_cases hB : isOperator c = false ∧ [c] ∈ B
    · by_cases hA : [c] ∈ A
      · rw [if_pos ⟨hB.1, hA⟩, if_pos hB]
        exact .inl rfl
      · rw [if_neg fun h => hA h.2, if_pos hB]
        exact .inr ⟨⟨hB.1, hB.2, hA⟩, rfl, _, rfl⟩
    · rw [if_neg fun h => hB ⟨h.1, hsub _ h.2⟩, if_neg hB]
      exact .inl rfl

/-- Two scanners at the same place do the same with a code point, unless it is a literal of the
larger alphabet only. -/
theorem step_widen (hsub : ∀ a ∈ A, a ∈ B) (s : Scanner) (i : Nat) (c : CodePoint) :
    s.step A i c = s.step B i c ∨
      (Lacks A B c ∧ s.step A i c = .error (.notInAlphabet c) ∧ ∃ s', s.step B i c = .ok s') := by
  rw [step, step]
  split_ifs
  · exact symbol_widen hsub s i c
  · exact .inl rfl
  · exact .inl rfl
  · exact .inl rfl
  · exact .inl rfl
  · exact symbol_widen hsub s i c

/-- An error is found at the place of the scanner or behind it. -/
theorem le_of_run_eq_error (h : s.run A i t = .error (cause, j)) : i ≤ j := by
  induction t generalizing s i with
  | nil =>
    obtain ⟨-, rfl⟩ := run_nil_eq_error h
    exact Nat.le_refl _
  | cons c t ih =>
    rcases run_cons_eq_error h with ⟨s', -, hs'⟩ | ⟨-, rfl⟩
    · have := ih hs'
      omega
    · exact Nat.le_refl _

/-- Two scanners over a text come to the same end, unless a literal of the larger alphabet comes in
its way before the scanner of the larger alphabet has found an error. -/
theorem run_widen (hsub : ∀ a ∈ A, a ∈ B) (s : Scanner) (i : Nat) (t : Text) :
    s.run A i t = s.run B i t ∨
      ∃ k c, t[k]? = some c ∧ Lacks A B c ∧ s.run A i t = .error (.notInAlphabet c, i + k) ∧
        ∀ cause j, s.run B i t = .error (cause, j) → i + k < j := by
  induction t generalizing s i with
  | nil =>
    rw [run, run]
    exact .inl rfl
  | cons c t ih =>
    rcases s.step_widen hsub i c with hstep | ⟨hlacks, hA, s', hB⟩
    · rw [run, run, hstep]
      cases s.step B i c with
      | error cause => exact .inl rfl
      | ok s' =>
        rcases ih s' (i + 1) with hrun | ⟨k, d, hd, hlacks, hA, hB⟩
        · exact .inl hrun
        · refine .inr ⟨k + 1, d, ?_, hlacks, ?_, ?_⟩
          · rwa [List.getElem?_cons_succ]
          · rw [show i + (k + 1) = i + 1 + k by omega]
            exact hA
          · intro cause j hj
            have := hB cause j hj
            omega
    · refine .inr ⟨0, c, rfl, hlacks, ?_, ?_⟩
      · rw [run, hA]
        rfl
      · intro cause j hj
        rw [run, hB] at hj
        have := le_of_run_eq_error hj
        omega

/-- What a scanner reads without error is an operator or a symbol of the alphabet. -/
theorem mem_of_step_eq_ok {s' : Scanner} (h : s.step A i c = .ok s') :
    isOperator c = true ∨ [c] ∈ A := by
  have hsymbol (hs : s.symbol A i c = .ok s') : isOperator c = true ∨ [c] ∈ A := by
    rw [symbol] at hs
    by_cases hopen : c = openGroup
    · exact .inl (by rw [hopen]; rfl)
    · rw [if_neg hopen] at hs
      by_cases hA : isOperator c = false ∧ [c] ∈ A
      · exact .inr hA.2
      · rw [if_neg hA] at hs
        cases hs
  rw [step] at h
  split_ifs at h with _ hunion hclose hstar
  · exact hsymbol h
  · exact .inl (by rw [hunion]; rfl)
  · exact .inl (by rw [hclose]; rfl)
  · exact .inl (by rw [hstar]; rfl)
  · exact hsymbol h

/-- All that comes before an error are operators and symbols of the alphabet. -/
theorem mem_of_run_eq_error (h : s.run A i t = .error (cause, j)) {k : Nat} (hk : i + k < j)
    (hc : t[k]? = some c) : isOperator c = true ∨ [c] ∈ A := by
  induction t generalizing s i k with
  | nil => simp at hc
  | cons d t ih =>
    rcases run_cons_eq_error h with ⟨s', hstep, hs'⟩ | ⟨-, rfl⟩
    · cases k with
      | zero =>
        obtain rfl := Option.some_inj.mp hc
        exact mem_of_step_eq_ok hstep
      | succ k =>
        rw [List.getElem?_cons_succ] at hc
        exact ih hs' (by omega) hc
    · omega

end Scanner

open Scanner (Lacks)

/-- Over two alphabets the same is found in an expression, unless a symbol that the smaller alphabet
lacks comes before the first error over the larger one. -/
theorem scan_widen (hsub : ∀ a ∈ A, a ∈ B) (regex : Text) :
    scan A regex = scan B regex ∨
      ∃ k c, regex[k]? = some c ∧ Lacks A B c ∧
        toNfa regex A = .error ⟨.notInAlphabet c, k, regex⟩ ∧
        ∀ e, toNfa regex B = .error e → k < e.position := by
  rcases Scanner.initial.run_widen hsub 0 regex with hrun | ⟨k, c, hc, hlacks, hA, hB⟩
  · exact .inl (by rw [scan, scan, hrun])
  · rw [Nat.zero_add] at hA hB
    refine .inr ⟨k, c, hc, hlacks, ?_, ?_⟩
    · rw [toNfa_eq_error_iff, scan_eq_error_iff]
      exact ⟨hA, rfl⟩
    · intro e he
      rw [toNfa_eq_error_iff, scan_eq_error_iff] at he
      exact hB e.cause e.position he.1

/-- If an expression is right over the larger alphabet only, then the error over the smaller one is
the first literal that it lacks. -/
theorem first_lacking_of_error (hsub : ∀ a ∈ A, a ∈ B) {e : ParseError}
    (hB : toNfa regex B = .ok n) (hA : toNfa regex A = .error e) :
    ∃ c, e = ⟨.notInAlphabet c, e.position, regex⟩ ∧ regex[e.position]? = some c ∧
      isOperator c = false ∧ [c] ∉ A ∧
      ∀ i < e.position, ∀ d, regex[i]? = some d → isOperator d = false → [d] ∈ A := by
  rcases scan_widen hsub regex with hscan | ⟨k, c, hc, ⟨hoperator, -, hnot⟩, herror, -⟩
  · have hok := exists_toNfa_iff_scan.mp ⟨n, hB⟩
    rw [toNfa_eq_error_iff, hscan, hok] at hA
    cases hA
  · rw [hA, Except.error.injEq] at herror
    subst herror
    refine ⟨c, rfl, hc, hoperator, hnot, ?_⟩
    intro i hi d hd hliteral
    rw [toNfa_eq_error_iff, scan_eq_error_iff] at hA
    have hlt : 0 + i < k := by rwa [Nat.zero_add]
    rcases Scanner.mem_of_run_eq_error hA.1 hlt hd with hd | hd
    · rw [hliteral] at hd
      cases hd
    · exact hd

/-- Operators are no literals, even if an alphabet names them. -/
theorem toNfa_widen_operators (hsub : ∀ a ∈ A, a ∈ B)
    (hnew : ∀ a ∈ B, a ∈ A ∨ ∃ c, isOperator c = true ∧ a = [c]) (regex : Text) :
    toNfa regex B = (toNfa regex A).map fun n => { n with alphabet := B } := by
  have hlacks (c : CodePoint) : ¬Lacks A B c := by
    rintro ⟨hliteral, hB, hA⟩
    rcases hnew [c] hB with h | ⟨d, hoperator, heq⟩
    · exact hA h
    · obtain rfl := List.singleton_inj.mp heq
      rw [hliteral] at hoperator
      cases hoperator
  have hscan : scan A regex = scan B regex := by
    rcases scan_widen hsub regex with hscan | ⟨k, c, -, hc, -⟩
    · exact hscan
    · exact absurd hc (hlacks c)
  cases hA : toNfa regex A with
  | ok n => exact toNfa_widen_of_ok (fun c _ => hsub [c]) hA
  | error e =>
    rw [toNfa_eq_error_iff, hscan, ← toNfa_eq_error_iff] at hA
    exact hA

/-- An alphabet and a larger one, both of single code points. An expression that is right over the
smaller alphabet is right over the larger one, with the same states and edges and the same subset
automaton; every text has the same trace up to the cause of its rejection. An error over the larger
alphabet is found over the smaller one as well, unless a literal comes before it that only the
larger one has; if there is an error over the smaller one only, then it is the first literal that
this one lacks. Operators in an alphabet make no difference at all. -/
theorem toNfa_widen (hB : ∀ a ∈ B, ∃ c, a = [c]) (hsub : ∀ a ∈ A, a ∈ B) (regex : Text) :
    (∀ n, toNfa regex A = .ok n →
      toNfa regex B = .ok { n with alphabet := B } ∧
      Dfa.ofNfa { n with alphabet := B } B = { Dfa.ofNfa n A with alphabet := B } ∧
      ∀ w, ((Dfa.ofNfa { n with alphabet := B } B).trace w).accepted =
          ((Dfa.ofNfa n A).trace w).accepted ∧
        ((Dfa.ofNfa { n with alphabet := B } B).trace w).path = ((Dfa.ofNfa n A).trace w).path ∧
        ((Dfa.ofNfa { n with alphabet := B } B).trace w).rejection.map Prod.snd =
          ((Dfa.ofNfa n A).trace w).rejection.map Prod.snd) ∧
    (∀ e, toNfa regex B = .error e →
      toNfa regex A = .error e ∨
        ∃ k c, k < e.position ∧ toNfa regex A = .error ⟨.notInAlphabet c, k, regex⟩ ∧
          regex[k]? = some c ∧ isOperator c = false ∧ [c] ∈ B ∧ [c] ∉ A) ∧
    (∀ n e, toNfa regex B = .ok n → toNfa regex A = .error e →
      ∃ c, e = ⟨.notInAlphabet c, e.position, regex⟩ ∧ regex[e.position]? = some c ∧
        isOperator c = false ∧ [c] ∉ A ∧
        ∀ i < e.position, ∀ d, regex[i]? = some d → isOperator d = false → [d] ∈ A) ∧
    ((∀ a ∈ B, a ∈ A ∨ ∃ c, isOperator c = true ∧ a = [c]) →
      toNfa regex B = (toNfa regex A).map fun n => { n with alphabet := B }) := by
  refine ⟨?_, ?_, ?_, ?_⟩
  · intro n hn
    have halphabet := alphabet_of_toNfa hn
    have hepsilon : epsilon ∉ B := by
      intro h
      obtain ⟨c, hc⟩ := hB epsilon h
      cases hc
    have hdfa := Dfa.ofNfa_widen (sound_of_toNfa hn) hepsilon (halphabet ▸ hsub)
    rw [halphabet] at hdfa
    refine ⟨toNfa_widen_of_ok (fun c _ => hsub [c]) hn, hdfa, ?_⟩
    intro w
    rw [hdfa]
    obtain ⟨hpath, hrejection⟩ :=
      Dfa.traceFrom_withAlphabet (Dfa.ofNfa n A) B Dfa.start 0 w
    exact ⟨Dfa.Trace.accepted_eq hrejection, hpath, hrejection⟩
  · intro e he
    rcases scan_widen hsub regex with hscan | ⟨k, c, hc, ⟨hoperator, hmem, hnot⟩, hA, hlt⟩
    · rw [toNfa_eq_error_iff, ← hscan, ← toNfa_eq_error_iff] at he
      exact .inl he
    · exact .inr ⟨k, c, hlt e he, hA, hc, hoperator, hmem, hnot⟩
  · intro n e hn he
    exact first_lacking_of_error hsub hn he
  · intro hnew
    exact toNfa_widen_operators hsub hnew regex

/-- The alphabet with one literal and one operator more. The error at the end of `ac(` is found over
the larger alphabet only, since the smaller one lacks the literal before it. -/
theorem toNfa_widen_star_of_star :
    let A := Alphabet.ofTexts ["ab"]
    let B := Alphabet.ofTexts ["ab+c"]
    (∀ a ∈ B, ∃ c, a = [c]) ∧ (∀ a ∈ A, a ∈ B) ∧
      (∃ n, toNfa "(a*b)*" A = .ok n ∧ toNfa "(a*b)*" B = .ok { n with alphabet := B } ∧
        Dfa.ofNfa { n with alphabet := B } B = { Dfa.ofNfa n A with alphabet := B }) ∧
      toNfa "ac(" B = .error ⟨.unexpectedEnd, 3, "ac("⟩ ∧
      ∃ k c, k < 3 ∧ toNfa "ac(" A = .error ⟨.notInAlphabet c, k, "ac("⟩ := by
  intro A B
  have hB : ∀ a ∈ B, ∃ c, a = [c] := by
    intro a ha
    obtain ⟨t, -, c, -, hc⟩ := Alphabet.mem_ofTexts.mp ha
    exact ⟨c, hc⟩
  have hsub : ∀ a ∈ A, a ∈ B := by decide +kernel
  have hn : toNfa "(a*b)*" A = .ok _ := toNfa_of_derives derives_star_of_star
  have he : toNfa "ac(" B = .error ⟨.unexpectedEnd, 3, "ac("⟩ :=
    toNfa_eq_error_iff.mpr (by decide +kernel)
  obtain ⟨hwide, hdfa, -⟩ := (toNfa_widen hB hsub "(a*b)*").1 _ hn
  refine ⟨hB, hsub, ⟨_, hn, hwide, hdfa⟩, he, ?_⟩
  rcases (toNfa_widen hB hsub "ac(").2.1 _ he with h | ⟨k, c, hk, h, -⟩
  · have hscan : scan A "ac(" ≠ .error ⟨.unexpectedEnd, 3, "ac("⟩ := by decide +kernel
    exact absurd (toNfa_eq_error_iff.mp h) hscan
  · exact ⟨k, c, hk, h⟩

end Regex

end RegexAutomata
