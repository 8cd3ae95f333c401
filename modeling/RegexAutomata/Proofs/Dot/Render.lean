/-
The text of a drawing.

The text determines what is drawn. Each line shows its kind by how it begins and goes on behind the
first numeral, and what is on it, although a label may go over several lines of the text.

* `delimited_acceptingLine`, `delimited_labelLine`, `delimited_edgeLine` — lines of one kind are
  determined with what they are about;
* `ends_acceptingLine`, `ends_labelLine`, `ends_edgeLine` — no line of one kind begins like one of
  the next kind;
* `eq_of_render_eq` — drawings with the same text are the same.
-/
import RegexAutomata.Dot.Drawing
import RegexAutomata.Proofs.Dot.Quote

namespace RegexAutomata.Dot.Drawing

open Text

attribute [ext] Drawing

variable {p q : Int} {u v : Text}

/-! ### Lines -/

theorem stateName_eq (q : Int) : stateName q = ofInt q := quote_ofInt q

theorem acceptingLine_append (q : Int) (u : Text) : acceptingLine q ++ u =
    CodePoint.ofChar '\t' :: (ofInt q ++ CodePoint.ofChar ' ' ::
      (ofString "[shape=doublecircle]\n" ++ u)) := by
  rw [acceptingLine, stateName_eq]
  simp only [List.append_assoc]
  rfl

theorem labelLine_append (x : Int × Text) (u : Text) : labelLine x ++ u =
    CodePoint.ofChar '\t' :: (ofInt x.1 ++ CodePoint.ofChar ' ' :: CodePoint.ofChar '[' ::
      (ofString "label=" ++
        (quote x.2 ++ CodePoint.ofChar ']' :: CodePoint.ofChar '\n' :: u))) := by
  rw [labelLine, stateName_eq]
  simp only [List.append_assoc]
  rfl

theorem edgeLine_append (e : Edge) (u : Text) : edgeLine e ++ u =
    CodePoint.ofChar '\t' :: (ofInt e.source ++ CodePoint.ofChar ' ' :: CodePoint.ofChar '-' ::
      (ofString "> " ++ (ofInt e.target ++ CodePoint.ofChar ' ' :: (ofString "[label=" ++
        (quoteLabel e.label ++ CodePoint.ofChar ']' :: CodePoint.ofChar '\n' :: u))))) := by
  rw [edgeLine, stateName_eq, stateName_eq]
  simp only [List.append_assoc]
  rfl

theorem startLines_append (q : Int) (u : Text) : startLines q ++ u =
    CodePoint.ofChar '\t' :: (ofString "start" ++ CodePoint.ofChar ' ' ::
      (ofString "[label=\"\" shape=none]\n\tstart -> " ++
        (ofInt q ++ CodePoint.ofChar '\n' :: u))) := by
  rw [startLines, stateName_eq]
  simp only [List.append_assoc]
  rfl

/-- A space ends a numeral. -/
theorem eq_of_ofInt_space (h : ofInt p ++ CodePoint.ofChar ' ' :: u =
    ofInt q ++ CodePoint.ofChar ' ' :: v) : p = q ∧ u = v :=
  ofInt_append_cons_inj rfl (by decide) h

theorem delimited_acceptingLine : Delimited (fun _ => True) acceptingLine := by
  intro p q u v _ _ h
  rw [acceptingLine_append, acceptingLine_append] at h
  obtain ⟨rfl, hrest⟩ := eq_of_ofInt_space (List.cons.inj h).2
  exact ⟨rfl, List.append_cancel_left hrest⟩

theorem delimited_labelLine : Delimited (fun x : Int × Text => IsCalm x.2) labelLine := by
  intro x y u v hx hy h
  rw [labelLine_append, labelLine_append, hx.quote_eq, hy.quote_eq] at h
  obtain ⟨hstate, hrest⟩ := eq_of_ofInt_space (List.cons.inj h).2
  obtain ⟨hlabel, htail⟩ :=
    quoteLabel_append_inj (List.append_cancel_left (List.cons.inj hrest).2)
  exact ⟨Prod.ext hstate hlabel, (List.cons.inj htail).2⟩

theorem delimited_edgeLine : Delimited (fun _ => True) edgeLine := by
  rintro ⟨source, target, label⟩ ⟨source', target', label'⟩ u v _ _ h
  rw [edgeLine_append, edgeLine_append] at h
  obtain ⟨rfl, harrow⟩ := eq_of_ofInt_space (List.cons.inj h).2
  obtain ⟨rfl, hword⟩ :=
    eq_of_ofInt_space (List.append_cancel_left (List.cons.inj harrow).2)
  obtain ⟨rfl, htail⟩ := quoteLabel_append_inj (List.append_cancel_left hword)
  exact ⟨rfl, (List.cons.inj htail).2⟩

theorem startLines_append_inj (h : startLines p ++ u = startLines q ++ v) : p = q ∧ u = v := by
  rw [startLines_append, startLines_append] at h
  have hrest := (List.cons.inj (List.append_cancel_left (List.cons.inj h).2)).2
  exact ofInt_append_cons_inj rfl (by decide) (List.append_cancel_left hrest)

/-! ### Ends of groups of lines -/

/-- The name of the invisible node is no numeral. -/
theorem ends_acceptingLine (q : Int) (u : Text) : Ends acceptingLine (startLines q ++ u) := by
  intro p v h
  rw [acceptingLine_append, startLines_append] at h
  have hspace : CodePoint.ofChar ' ' ∉ ofString "start" := by decide
  obtain ⟨hstart, -⟩ := eq_of_append_cons_eq (notMem_ofInt rfl (by decide) p) hspace
    (List.cons.inj h).2
  have hletter : CodePoint.ofChar 's' ∈ ofInt p := by
    rw [hstart]
    decide
  exact notMem_ofInt rfl (by decide) p hletter

theorem ends_edgeLine : Ends edgeLine (ofString "\x7d\n") := by
  intro e v h
  rw [edgeLine_append] at h
  exact absurd (List.cons.inj h).1 (by decide)

/-- The line of an edge goes on with an arrow. -/
theorem ends_labelLine (es : List Edge) :
    Ends labelLine (es.flatMap edgeLine ++ ofString "\x7d\n") := by
  intro x v h
  cases es with
  | nil =>
    rw [labelLine_append] at h
    exact absurd (List.cons.inj h).1 (by decide)
  | cons e es =>
    rw [List.flatMap_cons, List.append_assoc, labelLine_append, edgeLine_append] at h
    obtain ⟨-, hrest⟩ := eq_of_ofInt_space (List.cons.inj h).2
    exact absurd (List.cons.inj hrest).1 (by decide)

/-! ### Drawings -/

theorem render_eq (d : Drawing) : d.render =
    ofString "digraph " ++ (d.name ++ (ofString " \x7b\n" ++
      (d.accepting.flatMap acceptingLine ++ (startLines d.start ++ (d.labels.flatMap labelLine ++
        (d.edges.flatMap edgeLine ++ ofString "\x7d\n")))))) := by
  simp only [render, List.append_assoc]

/-- Drawings with the same name and the same text are the same, if there is nothing to escape in the
labels of their states. -/
theorem eq_of_render_eq {d d' : Drawing} (hname : d.name = d'.name)
    (hd : ∀ x ∈ d.labels, IsCalm x.2) (hd' : ∀ x ∈ d'.labels, IsCalm x.2)
    (h : d.render = d'.render) : d = d' := by
  rw [render_eq, render_eq, hname] at h
  have hlines := List.append_cancel_left (List.append_cancel_left (List.append_cancel_left h))
  obtain ⟨haccepting, hlines⟩ := delimited_acceptingLine.flatMap_inj (fun _ _ => trivial)
    (fun _ _ => trivial) (ends_acceptingLine _ _) (ends_acceptingLine _ _) hlines
  obtain ⟨hstart, hlines⟩ := startLines_append_inj hlines
  obtain ⟨hlabels, hlines⟩ := delimited_labelLine.flatMap_inj hd hd' (ends_labelLine _)
    (ends_labelLine _) hlines
  obtain ⟨hedges, -⟩ := delimited_edgeLine.flatMap_inj (fun _ _ => trivial) (fun _ _ => trivial)
    ends_edgeLine ends_edgeLine hlines
  exact Drawing.ext hname hstart haccepting hlabels hedges

end RegexAutomata.Dot.Drawing
