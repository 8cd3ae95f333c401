/-
The states of the subset construction are numbered in shortlex order.

An access word of a state is the least word of symbols that leads to it from the start, where a
shorter word is less and words of the same length are compared symbol by symbol.

* `exists_precedes_walk` — to a state with a lower number some lesser word leads;
* `exists_isAccessWord` — every state has an access word: that of the state from which it was found,
  with one symbol more;
* `lt_iff_of_isAccessWord` — states are numbered as their access words are ordered;
* `numbering_ofNfa` — so they are whatever operations built the nondeterministic automaton, the
  states are processed in this order, and the moves are found in the order in which they are listed.
-/
import RegexAutomata.Dictionary
import RegexAutomata.Proofs.Dfa.OfNfa
import RegexAutomata.Proofs.Nfa.Operation
import Mathlib.Data.List.Shortlex

namespace RegexAutomata

/-- Symbols in the order in which alphabets list them. -/
def Symbol.Precedes (a b : Symbol) : Prop := compare a b = .lt

instance : IsStrictTotalOrder Symbol Symbol.Precedes where
  trichotomous a b hab hba := by
    cases hcompare : compare a b with
    | lt => exact absurd hcompare hab
    | eq => exact Std.LawfulEqOrd.eq_of_compare hcompare
    | gt => exact absurd (Std.OrientedCmp.gt_iff_lt.mp hcompare) hba
  irrefl a := by simp [Symbol.Precedes]
  trans _ _ _ hab hbc := Std.TransCmp.lt_trans hab hbc

namespace Dfa

/-- Words of symbols in shortlex order: by length, then symbol by symbol. -/
def WordPrecedes : List Symbol → List Symbol → Prop := List.Shortlex Symbol.Precedes

/-- The state that a word of symbols leads to from a state. -/
def walk? (d : Dfa) (q : Int) (w : List Symbol) : Option Int := w.foldlM d.next? q

/-- The least word over the alphabet that leads to a state from the start. -/
structure IsAccessWord (d : Dfa) (q : Int) (w : List Symbol) : Prop where
  symbols : ∀ a ∈ w, a ∈ d.alphabet
  leads : d.walk? start w = some q
  least : ∀ v, (∀ a ∈ v, a ∈ d.alphabet) → d.walk? start v = some q → v = w ∨ WordPrecedes w v

/-! ### Words -/

namespace WordPrecedes

variable {u v w : List Symbol}

theorem trans (huv : WordPrecedes u v) (hvw : WordPrecedes v w) : WordPrecedes u w := by
  have : IsTrans (List Symbol) (List.Lex Symbol.Precedes) :=
    (isStrictWeakOrder_of_isOrderConnected (r := List.Lex Symbol.Precedes)).toIsTrans
  exact trans_of (Prod.Lex (· < ·) (List.Lex Symbol.Precedes)) huv hvw

theorem asymm (huv : WordPrecedes u v) : ¬WordPrecedes v u :=
  asymm_of (List.Shortlex Symbol.Precedes) huv

/-- One symbol more for each of two words does not change their order. -/
theorem concat (huv : WordPrecedes u v) (a c : Symbol) : WordPrecedes (u ++ [a]) (v ++ [c]) := by
  rcases List.shortlex_def.mp huv with hlt | ⟨hlength, hlex⟩
  · exact .of_length_lt (by simpa using hlt)
  · refine .of_lex (by simpa using hlength) ?_
    -- words of the same length differ before either ends
    clear huv
    induction hlex with
    | nil => cases hlength
    | cons _ ih => exact .cons (ih (by simpa using hlength))
    | rel h => exact .rel h

theorem concat_self (u : List Symbol) {a c : Symbol} (h : Symbol.Precedes a c) :
    WordPrecedes (u ++ [a]) (u ++ [c]) :=
  List.Shortlex.append_left ((List.shortlex_singleton_iff a c).mpr h) u

end WordPrecedes

theorem walk?_concat {d : Dfa} {q r : Int} {w : List Symbol} {a : Symbol} :
    d.walk? q (w ++ [a]) = some r ↔ ∃ p, d.walk? q w = some p ∧ d.next? p a = some r := by
  simp [walk?, List.foldlM_append, Option.bind_eq_some_iff]

/-- In an ascending list there is a first element with a property, if there is one at all. -/
theorem exists_first {α : Type} {R : α → α → Prop} {P : α → Prop} {l : List α} (h : l.Pairwise R)
    {x : α} (hx : x ∈ l) (hP : P x) : ∃ y ∈ l, P y ∧ ∀ z ∈ l, P z → z = y ∨ R y z := by
  induction l with
  | nil => exact absurd hx List.not_mem_nil
  | cons y l ih =>
    rw [List.pairwise_cons] at h
    by_cases hy : P y
    · refine ⟨y, List.mem_cons_self, hy, ?_⟩
      intro z hz _
      exact (List.mem_cons.mp hz).imp_right (h.1 z)
    · obtain ⟨y', hy', hP', hfirst⟩ :=
        ih h.2 ((List.mem_cons.mp hx).resolve_left fun e => hy (e ▸ hP))
      refine ⟨y', List.mem_cons_of_mem y hy', hP', ?_⟩
      intro z hz hPz
      rcases List.mem_cons.mp hz with rfl | hz
      · exact absurd hPz hy
      · exact hfirst z hz hPz

/-! ### Access words -/

section Access

variable {n : Nfa} {alphabet : Alphabet} {q r : Int} {u v w : List Symbol}

theorem mem_alphabet_of_walk? (hn : n.WellFormed)
    (hw : (ofNfa n alphabet).walk? start w = some q) : ∀ a ∈ w, a ∈ alphabet := by
  induction w using List.reverseRecOn generalizing q with
  | nil => exact fun a ha => absurd ha List.not_mem_nil
  | append_singleton w c ih =>
    obtain ⟨p, hp, hnext⟩ := walk?_concat.mp hw
    intro a ha
    rcases List.mem_append.mp ha with ha | ha
    · exact ih hp a ha
    · obtain rfl := List.mem_singleton.mp ha
      exact (exists_subset?_source hn ((next?_ofNfa_iff_mem hn).mp hnext)).1

theorem source_nonneg (hn : n.WellFormed) {m : Move} (hm : m ∈ (ofNfa n alphabet).moves) :
    0 ≤ m.source := by
  obtain ⟨-, s, hs⟩ := exists_subset?_source hn hm
  exact ((exists_subset?_ofNfa n alphabet m.source).mp ⟨s, hs⟩).1

/-- To a state with a lower number some lesser word leads. -/
theorem exists_precedes_walk (hn : n.WellFormed) (hq : 0 ≤ q) (hqr : q < r)
    (hv : (ofNfa n alphabet).walk? start v = some r) :
    ∃ u, (ofNfa n alphabet).walk? start u = some q ∧ WordPrecedes u v := by
  induction v using List.reverseRecOn generalizing q r with
  | nil =>
    have hr : start = r := Option.some_inj.mp hv
    rw [start] at hr
    omega
  | append_singleton v a ih =>
    obtain ⟨p, hp, hnext⟩ := walk?_concat.mp hv
    rcases hq.eq_or_lt with rfl | hpos
    · exact ⟨[], rfl, .of_length_lt (by simp)⟩
    -- the lower state was found by an earlier move, from an earlier state or on an earlier symbol
    · obtain ⟨⟨o, c, q⟩, hk, rfl, hkm⟩ :=
        exists_precedes_ofNfa hn ((next?_ofNfa_iff_mem hn).mp hnext) hpos hqr
      have hnext' := (next?_ofNfa_iff_mem hn).mpr hk
      rcases hkm with hlt | ⟨rfl, hsymbol⟩
      · obtain ⟨u, hu, huv⟩ := ih (source_nonneg hn hk) hlt hp
        exact ⟨u ++ [c], walk?_concat.mpr ⟨o, hu, hnext'⟩, huv.concat c a⟩
      · exact ⟨v ++ [c], walk?_concat.mpr ⟨_, hp, hnext'⟩, .concat_self v hsymbol⟩

/-- The least word that leads to the source of a state's first move, with the symbol of the move
added, is the least that leads to the state. -/
theorem IsAccessWord.concat (hn : n.WellFormed) {p : Int} {a : Symbol}
    (hu : (ofNfa n alphabet).IsAccessWord p u) (hm : ⟨p, a, q⟩ ∈ (ofNfa n alphabet).moves)
    (hq : q ≠ start) (hfirst : ∀ k ∈ (ofNfa n alphabet).moves, k.target = q →
      k = ⟨p, a, q⟩ ∨ Move.Precedes ⟨p, a, q⟩ k) :
    (ofNfa n alphabet).IsAccessWord q (u ++ [a]) := by
  have hleads : (ofNfa n alphabet).walk? start (u ++ [a]) = some q :=
    walk?_concat.mpr ⟨p, hu.leads, (next?_ofNfa_iff_mem hn).mpr hm⟩
  refine ⟨mem_alphabet_of_walk? hn hleads, hleads, fun v _ hv => ?_⟩
  rcases List.eq_nil_or_concat' v with rfl | ⟨v, c, rfl⟩
  · exact absurd (Option.some_inj.mp hv).symm hq
  · obtain ⟨p', hp', hnext⟩ := walk?_concat.mp hv
    have hleast {w : List Symbol} {o : Int} (hw : (ofNfa n alphabet).walk? start w = some o)
        (ho : o = p) : w = u ∨ WordPrecedes u w :=
      hu.least w (mem_alphabet_of_walk? hn hw) (ho ▸ hw)
    rcases hfirst _ ((next?_ofNfa_iff_mem hn).mp hnext) rfl with hsame | hlt | ⟨hsource, hsymbol⟩
    · obtain ⟨rfl, rfl⟩ : p' = p ∧ c = a := ⟨congrArg Move.source hsame, congrArg Move.symbol hsame⟩
      rcases hleast hp' rfl with rfl | huv
      · exact .inl rfl
      · exact .inr (huv.concat c c)
    -- the last state of the word but one is later than the source of the first move
    · obtain ⟨w, hw, hwv⟩ := exists_precedes_walk hn (source_nonneg hn hm) hlt hp'
      rcases hleast hw rfl with rfl | huw
      · exact .inr (hwv.concat a c)
      · exact .inr ((huw.trans hwv).concat a c)
    · rcases hleast hp' hsource.symm with rfl | huv
      · exact .inr (.concat_self v hsymbol)
      · exact .inr (huv.concat a c)

theorem isAccessWord_nil (n : Nfa) (alphabet : Alphabet) :
    (ofNfa n alphabet).IsAccessWord start [] where
  symbols _ ha := absurd ha List.not_mem_nil
  leads := rfl
  least v _ _ := (List.shortlex_nil_or_eq_nil v).symm

theorem exists_isAccessWord (hn : n.WellFormed) (h₀ : 0 ≤ q) (hq : q < (ofNfa n alphabet).states) :
    ∃ w, (ofNfa n alphabet).IsAccessWord q w := by
  obtain ⟨i, rfl⟩ := Int.eq_ofNat_of_zero_le h₀
  induction i using Nat.strong_induction_on with
  | _ i ih =>
    by_cases hzero : i = 0
    · subst hzero
      exact ⟨[], isAccessWord_nil n alphabet⟩
    · -- the first move to the state is from an earlier one, as there is some move from such a state
      obtain ⟨k, hk, htarget, -, hlt⟩ := exists_move_of_lt hn (by omega) hq
      obtain ⟨⟨p, a, r⟩, hm, rfl, hfirst⟩ :=
        exists_first (P := fun m => m.target = (i : Int)) (ascending_ofNfa hn alphabet) hk htarget
      have hp : 0 ≤ p := source_nonneg hn hm
      have hpi : p < i := by
        rcases hfirst k hk htarget with rfl | h | ⟨h, -⟩
        · exact hlt
        · exact Int.lt_trans h hlt
        · exact h.trans_lt hlt
      obtain ⟨u, hu⟩ := ih p.toNat (by omega) (by omega) (by omega)
      rw [Int.toNat_of_nonneg hp] at hu
      refine ⟨u ++ [a], hu.concat hn hm ?_ hfirst⟩
      rw [start]
      omega

theorem IsAccessWord.unique {d : Dfa} (hv : d.IsAccessWord q v) (hw : d.IsAccessWord q w) :
    v = w := by
  rcases hw.least v hv.symbols hv.leads with h | h
  · exact h
  · rcases hv.least w hw.symbols hw.leads with h' | h'
    · exact h'.symm
    · exact absurd h' h.asymm

theorem IsAccessWord.precedes_of_lt (hn : n.WellFormed) (hq : 0 ≤ q) (hqr : q < r)
    (hv : (ofNfa n alphabet).IsAccessWord q v) (hw : (ofNfa n alphabet).IsAccessWord r w) :
    WordPrecedes v w := by
  obtain ⟨u, hu, huw⟩ := exists_precedes_walk hn hq hqr hw.leads
  rcases hv.least u (mem_alphabet_of_walk? hn hu) hu with rfl | hvu
  · exact huw
  · exact hvu.trans huw

theorem IsAccessWord.nonneg (hn : n.WellFormed) (hw : (ofNfa n alphabet).IsAccessWord q w) :
    0 ≤ q := by
  rcases List.eq_nil_or_concat' w with rfl | ⟨u, a, rfl⟩
  · exact (Option.some_inj.mp hw.leads).le
  · obtain ⟨p, -, hnext⟩ := walk?_concat.mp hw.leads
    have hm := (next?_ofNfa_iff_mem hn).mp hnext
    obtain ⟨-, s, hs⟩ := exists_subset?_source hn hm
    exact ((exists_subset?_ofNfa n alphabet q).mp ⟨_, (mem_moves_ofNfa hn hs hm).2.2⟩).1

theorem lt_iff_of_isAccessWord (hn : n.WellFormed) (hv : (ofNfa n alphabet).IsAccessWord q v)
    (hw : (ofNfa n alphabet).IsAccessWord r w) : q < r ↔ WordPrecedes v w := by
  constructor
  · exact fun hqr => hv.precedes_of_lt hn (hv.nonneg hn) hqr hw
  · intro hvw
    rcases lt_trichotomy q r with hqr | rfl | hrq
    · exact hqr
    · rw [hv.unique hw] at hvw
      exact absurd hvw hvw.asymm
    · exact absurd (hw.precedes_of_lt hn (hw.nonneg hn) hrq hv) hvw.asymm

end Access

/-! ### Moves -/

theorem Move.keyLE_of_precedes {m k : Move} (h : m.Precedes k) : Move.keyLE m k = true := by
  rw [keyLE]
  rcases h with h | ⟨hsource, hsymbol⟩
  · rw [Int.compare_eq_lt.mpr h]
    rfl
  · rw [hsource, hsymbol, Std.ReflOrd.compare_self]
    rfl

/-- Whatever operations built an automaton, the states of its subset automaton have access words and
are numbered as these are ordered. They are processed in the order of their numbers, so that the
moves are found in ascending order, and sorting them for the dictionary form changes nothing. -/
theorem numbering_ofNfa (alphabet symbols : Alphabet) (ops : List Nfa.Operation) :
    let n := Nfa.Operation.after (.empty alphabet) ops
    let d := ofNfa n symbols
    (∀ q, 0 ≤ q → q < d.states → ∃! w, d.IsAccessWord q w) ∧
      (∀ q r v w, d.IsAccessWord q v → d.IsAccessWord r w → (q < r ↔ WordPrecedes v w)) ∧
      (∀ steps, ∃ done, ∀ q,
        q ∈ (Subsets.run n symbols.toList steps (.initial n)).processed ↔ q < done) ∧
      d.moves.Pairwise Move.Precedes ∧
      d.moves.mergeSort Move.keyLE = d.moves := by
  intro n d
  have hn : n.WellFormed := (Nfa.sound_after alphabet ops).wellFormed
  have hascending : d.moves.Pairwise Move.Precedes := ascending_ofNfa hn symbols
  refine ⟨?_, ?_, ?_, hascending, ?_⟩
  · intro q h₀ hq
    obtain ⟨w, hw⟩ := exists_isAccessWord hn h₀ hq
    exact ⟨w, hw, fun v hv => hv.unique hw⟩
  · intro q r v w hv hw
    exact lt_iff_of_isAccessWord hn hv hw
  · intro steps
    obtain ⟨done, h⟩ := Subsets.inOrder_run n symbols.ascending steps
    exact ⟨done, h.processed_iff⟩
  · exact List.mergeSort_of_pairwise (hascending.imp Move.keyLE_of_precedes)

end Dfa

end RegexAutomata
