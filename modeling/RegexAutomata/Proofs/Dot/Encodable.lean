/-
Drawings that have bytes.

A text has bytes unless a surrogate is in it. What a drawing puts around the labels of edges and
states are words of its own, numerals and quotes; so its text has bytes if the symbols of the
alphabet have.

* `Utf8.firstSurrogates?_eq_none_iff` — surrogates are found in a text exactly if there are any;
* `Drawing.encodable_render` — the text of a drawing has bytes if its labels have;
* `Nfa.Sound.encodable_drawing`, `Dfa.encodable_drawing_ofNfa` — those of an automaton are symbols of
  its alphabet;
* `Regex.encodable_drawing_of_toNfa` — so the drawings of both automata of an expression have bytes.
-/
import RegexAutomata.Dot.Drawing
import RegexAutomata.Proofs.Nfa.SameEdges
import RegexAutomata.Proofs.Regex.Trace
import RegexAutomata.Proofs.Text.Delimited
import RegexAutomata.Text.Utf8
import Mathlib.Data.List.TakeWhile

namespace RegexAutomata

/-! ### Texts -/

/-- No surrogate is in the text. -/
def Text.Encodable (t : Text) : Prop := ∀ c ∈ t, c.isSurrogate = false

theorem CodePoint.isSurrogate_ofChar (c : Char) : (CodePoint.ofChar c).isSurrogate = false := by
  have h := CodePoint.toChar?_ofChar c
  by_contra hs
  rw [Bool.not_eq_false] at hs
  rw [CodePoint.toChar?, if_pos hs] at h
  cases h

namespace Text

variable {t u : Text} {c : CodePoint}

@[simp] theorem encodable_nil : Encodable [] := fun _ hc => absurd hc List.not_mem_nil

@[simp] theorem encodable_cons : Encodable (c :: t) ↔ c.isSurrogate = false ∧ t.Encodable :=
  List.forall_mem_cons

@[simp] theorem encodable_append : Encodable (t ++ u) ↔ t.Encodable ∧ u.Encodable :=
  List.forall_mem_append

theorem encodable_flatMap {α : Type} {l : List α} {f : α → Text}
    (h : ∀ a ∈ l, (f a).Encodable) : Encodable (l.flatMap f) := by
  intro c hc
  obtain ⟨a, ha, hc⟩ := List.mem_flatMap.mp hc
  exact h a ha c hc

theorem encodable_map_ofChar (l : List Char) : Encodable (l.map CodePoint.ofChar) := by
  intro c hc
  obtain ⟨d, -, rfl⟩ := List.mem_map.mp hc
  exact CodePoint.isSurrogate_ofChar d

@[simp] theorem encodable_ofString (s : String) : (ofString s).Encodable :=
  encodable_map_ofChar s.toList

@[simp] theorem encodable_ofNat (n : Nat) : (ofNat n).Encodable :=
  encodable_map_ofChar (Nat.toDigits 10 n)

@[simp] theorem encodable_ofInt (n : Int) : (ofInt n).Encodable := by
  cases n with
  | ofNat n => exact encodable_ofNat n
  | negSucc n =>
    exact encodable_cons.mpr ⟨CodePoint.isSurrogate_ofChar '-', encodable_ofNat (n + 1)⟩

theorem encodable_replicate (k : Nat) (h : c.isSurrogate = false) :
    Encodable (List.replicate k c) := by
  intro d hd
  rwa [List.eq_of_mem_replicate hd]

theorem encodable_join {separator : Text} (h : separator.Encodable) {parts : List Text}
    (hparts : ∀ t ∈ parts, t.Encodable) : (join separator parts).Encodable := by
  intro c hc
  rcases mem_join hc with hc | ⟨t, ht, hc⟩
  · exact h c hc
  · exact hparts t ht c hc

end Text

/-- Surrogates are found in a text if there are any. -/
theorem Utf8.firstSurrogates?_eq_none_iff {t : Text} :
    firstSurrogates? t = none ↔ t.Encodable := by
  have hrest : t.dropWhile (fun c => !c.isSurrogate) = [] ↔ t.Encodable := by
    rw [List.dropWhile_eq_nil_iff]
    simp [Text.Encodable]
  rw [firstSurrogates?, List.span_eq_takeWhile_dropWhile, ← hrest]
  cases t.dropWhile fun c => !c.isSurrogate with
  | nil => simp
  | cons c rest => simp

/-! ### Quoting -/

namespace Dot

open Text

variable {t : Text}

theorem encodable_escapeQuotes (h : t.Encodable) (k : Nat) : (escapeQuotes k t).Encodable := by
  have hback (k : Nat) : Encodable (List.replicate k (CodePoint.ofChar '\\')) :=
    encodable_replicate k (CodePoint.isSurrogate_ofChar '\\')
  induction t generalizing k with
  | nil => exact hback k
  | cons c rest ih =>
    obtain ⟨hc, hrest⟩ := encodable_cons.mp h
    rw [escapeQuotes]
    split_ifs
    · exact ih hrest (k + 1)
    · exact encodable_append.mpr ⟨hback _, encodable_cons.mpr ⟨hc, ih hrest 0⟩⟩
    · exact encodable_append.mpr ⟨hback _, encodable_cons.mpr ⟨hc, ih hrest 0⟩⟩

theorem encodable_inQuotes (h : t.Encodable) : (inQuotes t).Encodable := by
  have hquote := CodePoint.isSurrogate_ofChar '"'
  exact encodable_cons.mpr ⟨hquote,
    encodable_append.mpr ⟨encodable_escapeQuotes h 0, encodable_cons.mpr ⟨hquote, encodable_nil⟩⟩⟩

theorem encodable_quotePlain (h : t.Encodable) : (quotePlain t).Encodable := by
  rw [quotePlain]
  split_ifs
  · exact h
  · exact encodable_inQuotes h

theorem encodable_quote (h : t.Encodable) : (quote t).Encodable := by
  rw [quote]
  split_ifs
  · exact h
  · exact encodable_quotePlain h

theorem encodable_quoteLabel (h : t.Encodable) : (quoteLabel t).Encodable := by
  refine encodable_quotePlain (encodable_flatMap fun c hc => ?_)
  have hc := h c hc
  split_ifs <;> simp [hc]

/-! ### Drawings -/

namespace Drawing

theorem encodable_stateName (q : Int) : (stateName q).Encodable :=
  encodable_quote (encodable_ofInt q)

/-- The text of a drawing has bytes if its name and its labels have. -/
theorem encodable_render {d : Drawing} (hname : d.name.Encodable)
    (hlabels : ∀ label ∈ d.labels, label.2.Encodable) (hedges : ∀ e ∈ d.edges, e.label.Encodable) :
    d.render.Encodable := by
  have haccepting : Encodable (d.accepting.flatMap acceptingLine) := by
    refine encodable_flatMap fun q _ => ?_
    simp [acceptingLine, encodable_stateName]
  have hstates : Encodable (d.labels.flatMap labelLine) := by
    refine encodable_flatMap fun label hlabel => ?_
    simp [labelLine, encodable_stateName, encodable_quote (hlabels label hlabel)]
  have hlines : Encodable (d.edges.flatMap edgeLine) := by
    refine encodable_flatMap fun e he => ?_
    simp [edgeLine, encodable_stateName, encodable_quoteLabel (hedges e he)]
  simp [render, startLines, encodable_stateName, hname, haccepting, hstates, hlines]

end Drawing

end Dot

open Text

/-- Every symbol of the alphabet has bytes. -/
def Alphabet.Encodable (alphabet : Alphabet) : Prop := ∀ a ∈ alphabet, Text.Encodable a

theorem Alphabet.encodable_ofTexts {texts : List Text} (h : ∀ t ∈ texts, t.Encodable) :
    Encodable (ofTexts texts) := by
  intro a ha
  obtain ⟨t, ht, c, hc, rfl⟩ := mem_ofTexts.mp ha
  exact encodable_cons.mpr ⟨h t ht c hc, encodable_nil⟩

/-- The drawing of an automaton has the symbols of its edges as labels. -/
theorem Nfa.Sound.encodable_drawing {n : Nfa} (hn : n.Sound) (htidy : n.Tidy)
    (halphabet : Alphabet.Encodable n.alphabet) : n.drawing.render.Encodable := by
  refine Dot.Drawing.encodable_render (encodable_ofString "nfa") ?_ ?_
  · intro label hlabel
    obtain ⟨q, -, rfl⟩ := List.mem_map.mp hlabel
    exact encodable_ofNat q
  · intro e he
    obtain ⟨⟨p, a, targets⟩, hmem, he⟩ := List.mem_flatMap.mp (List.mem_mergeSort.mp he)
    obtain ⟨q, hq, rfl⟩ := List.mem_map.mp he
    obtain ⟨⟨node, i⟩, hnode, hedges⟩ := List.mem_flatMap.mp hmem
    obtain ⟨⟨b, ts⟩, hts, heq⟩ := List.mem_map.mp hedges
    cases heq
    rw [List.mem_zipIdx_iff_getElem?, Array.getElem?_toList] at hnode
    have hnode : n.node? (i : Int) = some node := by simpa [Nfa.node?] using hnode
    have hedge : n.Edge i a q := by
      rw [Nfa.Edge, Nfa.targets, hnode]
      show q ∈ node.edges.targets a
      rwa [((htidy _ node hnode).mem_iff.mp hts).2]
    show (Dot.edgeLabel a).Encodable
    rw [Dot.edgeLabel]
    split_ifs with ha
    · exact encodable_ofString "epsilon"
    · exact halphabet a ((hn.labelsKnown hedge).resolve_left ha)

/-- The drawing of a subset automaton has the symbols of its moves as labels, and the numbers of the
states in each set. -/
theorem Dfa.encodable_drawing_ofNfa {n : Nfa} (hn : n.WellFormed) {alphabet : Alphabet}
    (halphabet : alphabet.Encodable) : (ofNfa n alphabet).drawing.render.Encodable := by
  have hsubset (l : List Int) : (subsetLabel l).Encodable := by
    have hjoin : (Text.join ", " ((l.mergeSort fun p q => p ≤ q).map Text.ofInt)).Encodable := by
      refine encodable_join (encodable_ofString ", ") fun t ht => ?_
      obtain ⟨q, -, rfl⟩ := List.mem_map.mp ht
      exact encodable_ofInt q
    simp [subsetLabel, hjoin]
  have hlookup (q : Int) (label : Text) (h : (ofNfa n alphabet).labels.lookup q = some label) :
      label.Encodable := by
    obtain ⟨⟨p, s⟩, -, heq⟩ := List.mem_map.mp (Keyed.mem_of_lookup h)
    cases heq
    exact hsubset s.toList
  refine Dot.Drawing.encodable_render (encodable_ofString "dfa") ?_ ?_
  · intro label hlabel
    obtain ⟨q, -, rfl⟩ := List.mem_map.mp hlabel
    show (Option.getD _ _ : Text).Encodable
    cases hq : (ofNfa n alphabet).labels.lookup (q : Int) with
    | none => exact encodable_ofNat q
    | some label => exact hlookup _ label hq
  · intro e he
    obtain ⟨m, hm, rfl⟩ := List.mem_map.mp (List.mem_mergeSort.mp he)
    exact halphabet m.symbol (exists_subset?_source hn hm).1

/-- The drawings of both automata of an expression have bytes if the symbols of the alphabet have. -/
theorem Regex.encodable_drawing_of_toNfa {regex : Text} {alphabet : Alphabet} {n : Nfa}
    (hn : toNfa regex alphabet = .ok n) (halphabet : alphabet.Encodable) :
    n.drawing.render.Encodable ∧ (Dfa.ofNfa n alphabet).drawing.render.Encodable := by
  have hsound := sound_of_toNfa hn
  refine ⟨hsound.encodable_drawing ?_ ?_, Dfa.encodable_drawing_ofNfa hsound.wellFormed halphabet⟩
  · rw [← after_eq_of_toNfa hn]
    exact Nfa.tidy_after _ _
  · rwa [alphabet_of_toNfa hn]

end RegexAutomata
