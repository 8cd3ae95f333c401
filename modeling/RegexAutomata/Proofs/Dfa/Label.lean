/-
Labels of states.

A state of a subset automaton is labelled with the numbers of the states that it stands for, in
ascending order. `labelStates?` reads them off the label again, so that the label says which states
they are.

* `Text.toInts?_join` — numerals with commas between them are read one by one;
* `labelStates?_subsetLabel` — the numbers that were written are read, in ascending order;
* `subsetLabel_eq_iff_perm` — so only permutations have the same label;
* `Dfa.labelStates?_of_lookup_labels` — from the label of a state its set is read;
* `Dfa.labels_identify` — and no two states of a subset automaton have the same label.
-/
import RegexAutomata.Proofs.Dfa.OfNfa
import RegexAutomata.Proofs.Dictionary.Decode
import RegexAutomata.Proofs.Nfa.SameEdges

namespace RegexAutomata

/-! ### Reading a label -/

/-- The numbers whose numerals stand in a text, with commas between them. -/
def Text.toInts? (t : Text) : Option (List Int) :=
  if t = [] then some [] else (splitOn ',' t).mapM toInt?

/-- What numerals are written with, and the comma between them. -/
def isListed (c : CodePoint) : Bool := c.isDigit || c = '-' || c = ','

/-- The numbers in a label, which are what is left without its braces and blanks. -/
def labelStates? (label : Text) : Option (List Int) := Text.toInts? (label.filter isListed)

theorem Text.toInts?_join (l : List Int) : toInts? (join "," (l.map ofInt)) = some l := by
  by_cases hl : l = []
  · subst hl
    rfl
  · have hcomma : ∀ t ∈ l.map ofInt, CodePoint.ofChar ',' ∉ t := by
      intro t ht
      obtain ⟨q, -, rfl⟩ := List.mem_map.mp ht
      exact notMem_ofInt rfl (by decide) q
    have hpieces : splitOn ',' (join "," (l.map ofInt)) = l.map ofInt :=
      splitOn_join hcomma (mt List.map_eq_nil_iff.mp hl)
    have hread : (splitOn ',' (join "," (l.map ofInt))).mapM toInt? = some l := by
      rw [hpieces]
      exact Dictionary.mapM_map toInt?_ofInt l
    -- in a text of no code points there is one piece, which is no numeral
    have hne : join "," (l.map ofInt) ≠ [] := by
      intro hnil
      rw [hnil] at hread
      cases hread
    rw [toInts?, if_neg hne, hread]

theorem filter_isListed_ofInt (q : Int) : (Text.ofInt q).filter isListed = Text.ofInt q := by
  rw [List.filter_eq_self]
  intro c hc
  rcases Text.mem_ofInt hc with hdigit | rfl
  · rw [isListed, hdigit, Bool.true_or, Bool.true_or]
  · rfl

/-- Of a label the numerals are left, with commas between them. -/
theorem filter_isListed_subsetLabel (l : List Int) :
    (subsetLabel l).filter isListed =
      Text.join "," ((l.mergeSort fun p q => p ≤ q).map Text.ofInt) := by
  have hnumerals (l : List Int) :
      (l.map Text.ofInt).map (List.filter isListed) = l.map Text.ofInt := by
    rw [List.map_map]
    exact List.map_congr_left fun q _ => filter_isListed_ofInt q
  rw [subsetLabel, List.filter_append, List.filter_append, Text.filter_join, hnumerals]
  exact List.append_nil _

/-- The numbers in a label are the ones that were written, in ascending order. -/
theorem labelStates?_subsetLabel (l : List Int) :
    labelStates? (subsetLabel l) = some (l.mergeSort fun p q => p ≤ q) := by
  rw [labelStates?, filter_isListed_subsetLabel, Text.toInts?_join]

/-- The numbers in the label of a set are its elements. -/
theorem labelStates?_subsetLabel_toList (s : StateSet) :
    labelStates? (subsetLabel s.toList) = some s.toList := by
  have hsorted : s.toList.Pairwise fun p q => decide (p ≤ q) = true :=
    s.ascending.imp fun hlt => decide_eq_true (Int.compare_eq_lt.mp hlt).le
  rw [labelStates?_subsetLabel, List.mergeSort_of_pairwise hsorted]

theorem subsetLabel_eq_iff_perm {l l' : List Int} : subsetLabel l = subsetLabel l' ↔ l.Perm l' := by
  constructor
  · intro h
    have hread := congrArg labelStates? h
    rw [labelStates?_subsetLabel, labelStates?_subsetLabel, Option.some_inj] at hread
    calc
      l.Perm (l.mergeSort fun p q => p ≤ q) := (l.mergeSort_perm _).symm
      _ = l'.mergeSort fun p q => p ≤ q := hread
      List.Perm _ l' := l'.mergeSort_perm _
  · intro h
    rw [subsetLabel, subsetLabel, mergeSort_int_eq_of_perm h]

/-! ### Labels of states -/

namespace Dfa

variable {n : Nfa} {alphabet : Alphabet} {q r : Int} {label : Text}

/-- From the label of a state the set is read that the state stands for. -/
theorem labelStates?_of_lookup_labels (h : (ofNfa n alphabet).labels.lookup q = some label) :
    ∃ s, (ofNfa n alphabet).subset? q = some s ∧ label = subsetLabel s.toList ∧
      labelStates? label = some s.toList := by
  rw [lookup_labels_ofNfa, Option.map_eq_some_iff] at h
  obtain ⟨s, hs, rfl⟩ := h
  exact ⟨s, hs, rfl, labelStates?_subsetLabel_toList s⟩

theorem lookup_labels_ofNfa_inj (hq : (ofNfa n alphabet).labels.lookup q = some label)
    (hr : (ofNfa n alphabet).labels.lookup r = some label) : q = r := by
  obtain ⟨s, hs, -, hreads⟩ := labelStates?_of_lookup_labels hq
  obtain ⟨t, ht, -, hreadt⟩ := labelStates?_of_lookup_labels hr
  have hst : s = t := SortedSet.toList_inj.mp (Option.some_inj.mp (hreads.symm.trans hreadt))
  exact subset?_ofNfa_inj hs (hst ▸ ht)

/-- The labels of two collections of numbers, with repetitions or without, are the same just if the
collections are permutations of each other. In a subset automaton exactly the states have labels, no
two of them have the same one, and what is read off the label of a state is the set that the state
stands for. -/
theorem labels_identify :
    (∀ l l' : List Int, subsetLabel l = subsetLabel l' ↔ l.Perm l') ∧
    ∀ (n : Nfa) (symbols : Alphabet),
      let d := ofNfa n symbols
      (∀ q, (∃ label, d.labels.lookup q = some label) ↔ 0 ≤ q ∧ q < d.states) ∧
      (∀ q r label, d.labels.lookup q = some label → d.labels.lookup r = some label → q = r) ∧
      ∀ q label, d.labels.lookup q = some label →
        ∃ s, d.subset? q = some s ∧ label = subsetLabel s.toList ∧
          labelStates? label = some s.toList := by
  refine ⟨fun _ _ => subsetLabel_eq_iff_perm, ?_⟩
  intro n symbols d
  refine ⟨?_, ?_, ?_⟩
  · exact exists_lookup_labels_ofNfa n symbols
  · exact fun _ _ _ => lookup_labels_ofNfa_inj
  · exact fun _ _ => labelStates?_of_lookup_labels

end Dfa

end RegexAutomata
