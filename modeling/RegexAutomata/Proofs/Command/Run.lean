/-
What a run of the command leaves behind.

If the input file holds a text and the output files can be written, it is the expression alone that
decides how a run ends. If the input file holds no text, then the run ends without an exit code.

* `run_eq_runWith` — the arguments and the content of the input file determine a run;
* `runWith_of_decode_error`, `runWith_of_toNfa_error`, `runWith_of_toNfa` — the ways in which it ends;
* `Results` — what a run leaves behind that succeeds;
* `Refuses`, `Exits` — what it leaves behind that fails, and the two ways to have an exit code;
* `run_encode` — a run succeeds exactly if the grammar derives the expression, and leaves nothing
  behind but a message if it fails;
* `run_exits_iff` — a run has an exit code exactly if the content is that of a text.
-/
import RegexAutomata.Proofs.Command.FileTree
import RegexAutomata.Proofs.Text.Lines
import RegexAutomata.Proofs.Text.Utf8

namespace RegexAutomata.Command

open FileTree
open Regex (Derives Describes maxDepth)

variable {tree tree' : FileTree} {arguments : List Text} {a : Arguments} {content : Bytes} {t : Text}
  {regex : Text} {lines : List Text} {n : Nfa} {nfaPlace dfaPlace : Place}

/-! ### Ways to end -/

theorem run_eq_runWith (harguments : Arguments.read arguments = .ok a)
    (hinput : tree.Reads a.inputFile content) :
    (run disk arguments).run tree = (a.runWith disk content).run tree := by
  simp only [run, harguments, Arguments.run, StateT.run_bind, readFile_run hinput]
  rfl

theorem runWith_of_decode_error {e : DecodeError} (h : Utf8.decode false content = .error e) :
    (a.runWith disk content).run tree = (a.faulted [.begin] (.undecodable e), tree) := by
  have hlines : linesOf content = .error e := by rw [linesOf, h]
  rw [Arguments.runWith, hlines]
  rfl

/-- The lines of an encoded text. -/
theorem linesOf_encode (ht : t.Encodable) :
    linesOf (Utf8.encode t) = .ok (Text.cutLines (Text.uniformLineEnds t)) := by
  rw [linesOf, Utf8.decode_eq_ok_iff.mpr ⟨ht, rfl⟩, Text.cutLines_uniformLineEnds]

theorem runWith_of_toNfa_error {e : Regex.ParseError} (hlines : linesOf content = .ok lines)
    (h : Regex.toNfa a.regex (.ofTexts lines) = .error e) :
    (a.runWith disk content).run tree =
      (a.failed [.begin, .nfa] ("Error parsing regex: " ++ e.message), tree) := by
  have hwork : Work.ofLines a.regex lines = .error e := by rw [Work.ofLines, h]
  rw [Arguments.runWith, hlines]
  dsimp only
  rw [hwork]
  rfl

/-- Both automata and the lines that they are tried with. -/
def Work.ofNfa (n : Nfa) (lines : List Text) : Work := ⟨n, Dfa.ofNfa n (.ofTexts lines), lines⟩

/-- The files after both automata were drawn. -/
def Work.draw (w : Work) (tree : FileTree) (nfaPlace dfaPlace : Place) : FileTree :=
  (tree.store nfaPlace (Utf8.encode w.nfa.drawing.render)).store dfaPlace
    (Utf8.encode w.dfa.drawing.render)

theorem write_run (w : Work) (hnfa : tree.Writes a.nfaFile nfaPlace)
    (hdfa : tree.Writes a.dfaFile dfaPlace) :
    (w.write disk a).run.run tree = (.ok (), w.draw tree nfaPlace dfaPlace) := by
  rw [Work.write, ExceptT.run_bind, StateT.run_bind, writeFile_run hnfa]
  exact writeFile_run (hnfa.store hdfa _) _

theorem runWith_of_toNfa (hlines : linesOf content = .ok lines)
    (h : Regex.toNfa a.regex (.ofTexts lines) = .ok n) (hnfa : tree.Writes a.nfaFile nfaPlace)
    (hdfa : tree.Writes a.dfaFile dfaPlace) :
    (a.runWith disk content).run tree = (a.finished (lines.map (Work.ofNfa n lines).verdict),
      (Work.ofNfa n lines).draw tree nfaPlace dfaPlace) := by
  have hwork : Work.ofLines a.regex lines = .ok (.ofNfa n lines) := by
    rw [Work.ofLines, h]
    rfl
  rw [Arguments.runWith, hlines]
  dsimp only
  rw [hwork]
  dsimp only
  rw [StateT.run_bind, write_run _ hnfa hdfa]
  rfl

/-! ### Results -/

/-- A line of the output tells of a line whether the expression describes it. -/
def Judges (alphabet : Alphabet) (regex line shown : Text) : Prop :=
  (Describes alphabet regex line ∧ shown = "accept: " ++ line) ∨
    (¬Describes alphabet regex line ∧ shown = "reject: " ++ line)

theorem judges_verdict (h : Regex.toNfa regex (.ofTexts lines) = .ok n) (line : Text) :
    Judges (.ofTexts lines) regex line ((Work.ofNfa n lines).verdict line) := by
  have haccepts : (Work.ofNfa n lines).dfa.accepts line = true ↔
      Describes (.ofTexts lines) regex line := Regex.accepts_ofNfa_iff_describes h line
  rw [Work.verdict]
  by_cases hline : Describes (.ofTexts lines) regex line
  · rw [if_pos (haccepts.mpr hline)]
    exact .inl ⟨hline, rfl⟩
  · rw [if_neg (mt haccepts.mp hline)]
    exact .inr ⟨hline, rfl⟩

/-- A verdict on a line is a line. -/
theorem isLine_verdict (w : Work) {line : Text} (h : line.IsLine) : (w.verdict line).IsLine := by
  rw [Work.verdict]
  refine List.forall_mem_append.mpr ⟨?_, h⟩
  split_ifs <;> decide

theorem encodable_verdict (w : Work) {line : Text} (h : line.Encodable) :
    (w.verdict line).Encodable :=
  Text.encodable_append.mpr ⟨Text.encodable_ofString _, h⟩

/-- The lines of a text hold no separators, and no surrogates if the text has none. -/
theorem isLine_of_mem_lines {line : Text} (h : line ∈ Text.cutLines (Text.uniformLineEnds t)) :
    line.IsLine := by
  rw [Text.cutLines_uniformLineEnds] at h
  exact Text.splitLines_noSeparator h

theorem encodable_of_mem_lines {line : Text} (ht : t.Encodable)
    (h : line ∈ Text.cutLines (Text.uniformLineEnds t)) : line.Encodable := by
  rw [Text.cutLines_uniformLineEnds] at h
  intro c hc
  exact Text.forall_mem_uniformLineEnds (by decide) (fun c hc _ => ht c hc) c
    (Text.mem_of_mem_splitLines h hc)

/-- All that a run writes has bytes, if the lines have. -/
theorem encodable_finished (a : Arguments) (ht : t.Encodable)
    (hn : Regex.toNfa a.regex (.ofTexts (Text.cutLines (Text.uniformLineEnds t))) = .ok n) :
    let lines := Text.cutLines (Text.uniformLineEnds t)
    n.drawing.render.Encodable ∧ (Dfa.ofNfa n (.ofTexts lines)).drawing.render.Encodable ∧
      (a.finished (lines.map (Work.ofNfa n lines).verdict)).output.Encodable := by
  intro lines
  obtain ⟨hnfa, hdfa⟩ := Regex.encodable_drawing_of_toNfa hn
    (Alphabet.encodable_ofTexts fun _ => encodable_of_mem_lines ht)
  refine ⟨hnfa, hdfa, Text.encodable_flatMap fun shown hshown => ?_⟩
  obtain ⟨line, hline, rfl⟩ := List.mem_map.mp hshown
  exact Text.encodable_append.mpr
    ⟨encodable_verdict _ (encodable_of_mem_lines ht hline), Text.encodable_ofString _⟩

/-- What a run with lines leaves behind that succeeds: the drawings of both automata in their files,
and a line of output for each line. -/
structure Results (regex : Text) (lines : List Text) (tree : FileTree) (nfaPlace dfaPlace : Place)
    (report : Report) (tree' : FileTree) : Prop where
  drawn : ∃ n, Regex.toNfa regex (.ofTexts lines) = .ok n ∧
    tree'.lookup? nfaPlace =
      some (.written (Utf8.encode n.drawing.render) (tree.lookup? nfaPlace)) ∧
    tree'.lookup? dfaPlace =
      some (.written (Utf8.encode (Dfa.ofNfa n (.ofTexts lines)).drawing.render)
        (tree.lookup? dfaPlace)) ∧
    n.drawing.render.Encodable ∧ (Dfa.ofNfa n (.ofTexts lines)).drawing.render.Encodable
  other : ∀ place, place ≠ nfaPlace → place ≠ dfaPlace → tree'.lookup? place = tree.lookup? place
  encodable : report.output.Encodable
  judges : List.Forall₂ (Judges (.ofTexts lines) regex) lines (Text.cutLines report.output)

/-- What a run leaves behind whose expression cannot be read: a message only. -/
structure Refuses (a : Arguments) (alphabet : Alphabet) (tree : FileTree) (report : Report)
    (tree' : FileTree) : Prop where
  ending : report.ending = .exit 1
  output : report.output = []
  messages : ∃ e, Regex.toNfa a.regex alphabet = .error e ∧ report.messages =
    a.stepMessages [.begin, .nfa] ++ unlines ["Error parsing regex: " ++ e.message]
  files : tree' = tree

theorem Refuses.ending_ne {alphabet : Alphabet} {report : Report}
    (h : Refuses a alphabet tree report tree') : report.ending ≠ .exit 0 := by
  rw [h.ending]
  decide

theorem results_finished (a : Arguments) (tree : FileTree) (ht : t.Encodable)
    (hne : nfaPlace ≠ dfaPlace)
    (hn : Regex.toNfa a.regex (.ofTexts (Text.cutLines (Text.uniformLineEnds t))) = .ok n) :
    let lines := Text.cutLines (Text.uniformLineEnds t)
    Results a.regex lines tree nfaPlace dfaPlace
      (a.finished (lines.map (Work.ofNfa n lines).verdict))
      ((Work.ofNfa n lines).draw tree nfaPlace dfaPlace) := by
  intro lines
  obtain ⟨hnfa, hdfa, houtput⟩ := encodable_finished a ht hn
  refine ⟨⟨n, hn, ?_, ?_, hnfa, hdfa⟩, ?_, houtput, ?_⟩
  · rw [Work.draw, lookup_store_of_ne hne, lookup_store_self]
    rfl
  · rw [Work.draw, lookup_store_self, lookup_store_of_ne hne.symm]
    rfl
  · intro place hplace hplace'
    rw [Work.draw, lookup_store_of_ne hplace', lookup_store_of_ne hplace]
  -- each verdict is a line, so the output is cut into the verdicts
  · have hcut : Text.cutLines (unlines (lines.map (Work.ofNfa n lines).verdict)) =
        lines.map (Work.ofNfa n lines).verdict := by
      refine Text.cutLines_flatMap fun shown hshown => ?_
      obtain ⟨line, hline, rfl⟩ := List.mem_map.mp hshown
      exact isLine_verdict _ (isLine_of_mem_lines hline)
    show List.Forall₂ _ lines (Text.cutLines (unlines _))
    rw [hcut, List.forall₂_map_right_iff]
    exact List.forall₂_same.mpr fun line _ => judges_verdict hn line

/-- How a run ends with an exit code: the grammar derives the expression, and all that is written
has bytes, or it does not. -/
inductive Exits (a : Arguments) (alphabet : Alphabet) (tree : FileTree) (report : Report)
    (tree' : FileTree) : Prop where
  | success {e : Regex.Expr} {n : Nfa} : Derives alphabet .union maxDepth a.regex e →
    Regex.toNfa a.regex alphabet = .ok n → report.ending = .exit 0 → n.drawing.render.Encodable →
    (Dfa.ofNfa n alphabet).drawing.render.Encodable → report.output.Encodable →
    Exits a alphabet tree report tree'
  | failure : (¬∃ e, Derives alphabet .union maxDepth a.regex e) →
    Refuses a alphabet tree report tree' → Exits a alphabet tree report tree'

theorem Exits.exists_code {alphabet : Alphabet} {report : Report}
    (h : Exits a alphabet tree report tree') : ∃ code, report.ending = .exit code := by
  cases h with
  | success _ _ hending => exact ⟨0, hending⟩
  | failure _ hrefuses => exact ⟨1, hrefuses.ending⟩

/-! ### Runs -/

/-- What a run does with an encoded text: the grammar decides whether there is work to do. -/
theorem run_cases (harguments : Arguments.read arguments = .ok a)
    (hinput : tree.Reads a.inputFile (Utf8.encode t)) (ht : t.Encodable)
    (hnfa : tree.Writes a.nfaFile nfaPlace) (hdfa : tree.Writes a.dfaFile dfaPlace) :
    let lines := Text.cutLines (Text.uniformLineEnds t)
    let derived := ∃ e, Derives (.ofTexts lines) .union maxDepth a.regex e
    (derived ∧ ∃ n, Regex.toNfa a.regex (.ofTexts lines) = .ok n ∧
      (run disk arguments).run tree = (a.finished (lines.map (Work.ofNfa n lines).verdict),
        (Work.ofNfa n lines).draw tree nfaPlace dfaPlace)) ∨
    (¬derived ∧ ∃ report, Refuses a (.ofTexts lines) tree report tree ∧
      (run disk arguments).run tree = (report, tree)) := by
  intro lines derived
  rw [run_eq_runWith harguments hinput]
  cases hn : Regex.toNfa a.regex (.ofTexts lines) with
  | ok n =>
    exact .inl ⟨Regex.exists_derives_of_toNfa hn, n, rfl,
      runWith_of_toNfa (linesOf_encode ht) hn hnfa hdfa⟩
  | error e =>
    refine .inr ⟨?_, _, ⟨rfl, rfl, ⟨e, hn, rfl⟩, rfl⟩,
      runWith_of_toNfa_error (linesOf_encode ht) hn⟩
    rintro ⟨_, he⟩
    rw [Regex.toNfa_of_derives he] at hn
    cases hn

/-- If the input file holds an encoded text and the files for both automata can be written, then the
run succeeds exactly if the grammar derives the expression over the code points of the lines. Then
it leaves both drawings and a verdict on each line. Otherwise it fails, writes nothing to the
standard output and leaves the files as they are. -/
theorem run_encode (harguments : Arguments.read arguments = .ok a)
    (hinput : tree.Reads a.inputFile (Utf8.encode t)) (ht : t.Encodable)
    (hnfa : tree.Writes a.nfaFile nfaPlace) (hdfa : tree.Writes a.dfaFile dfaPlace)
    (hne : nfaPlace ≠ dfaPlace) :
    let lines := Text.cutLines (Text.uniformLineEnds t)
    let report := ((run disk arguments).run tree).1
    let tree' := ((run disk arguments).run tree).2
    (report.ending = .exit 0 ↔ ∃ e, Derives (.ofTexts lines) .union maxDepth a.regex e) ∧
    (report.ending = .exit 0 → Results a.regex lines tree nfaPlace dfaPlace report tree') ∧
    (report.ending ≠ .exit 0 → Refuses a (.ofTexts lines) tree report tree') := by
  intro lines
  rcases run_cases harguments hinput ht hnfa hdfa with
    ⟨hderived, n, hn, hrun⟩ | ⟨hderived, report, hrefuses, hrun⟩
  · rw [hrun]
    exact ⟨iff_of_true rfl hderived, fun _ => results_finished a tree ht hne hn,
      fun hending => absurd rfl hending⟩
  · rw [hrun]
    exact ⟨iff_of_false hrefuses.ending_ne hderived,
      fun hending => absurd hending hrefuses.ending_ne, fun _ => hrefuses⟩

/-- A run with an encoded text has an exit code. -/
theorem exits_of_encode (harguments : Arguments.read arguments = .ok a)
    (hinput : tree.Reads a.inputFile (Utf8.encode t)) (ht : t.Encodable)
    (hnfa : tree.Writes a.nfaFile nfaPlace) (hdfa : tree.Writes a.dfaFile dfaPlace) :
    Exits a (.ofTexts (Text.cutLines (Text.uniformLineEnds t))) tree
      ((run disk arguments).run tree).1 ((run disk arguments).run tree).2 := by
  rcases run_cases harguments hinput ht hnfa hdfa with
    ⟨⟨e, he⟩, n, hn, hrun⟩ | ⟨hderived, report, hrefuses, hrun⟩
  · rw [hrun]
    obtain ⟨hdrawn, hdrawn', houtput⟩ := encodable_finished a ht hn
    exact .success he hn rfl hdrawn hdrawn' houtput
  · rw [hrun]
    exact .failure hderived hrefuses

/-- If the files for both automata can be written, then a run has an exit code exactly if the content
of the input file is that of a text, and then the grammar decides which one. Otherwise the run ends
with a fault before it writes anything. -/
theorem run_exits_iff (harguments : Arguments.read arguments = .ok a)
    (hinput : tree.Reads a.inputFile content)
    (hnfa : tree.Writes a.nfaFile nfaPlace) (hdfa : tree.Writes a.dfaFile dfaPlace) :
    let report := ((run disk arguments).run tree).1
    let tree' := ((run disk arguments).run tree).2
    ((∃ code, report.ending = .exit code) ↔ ∃ t : Text, t.Encodable ∧ content = Utf8.encode t) ∧
    (∀ t : Text, t.Encodable → content = Utf8.encode t →
      Exits a (.ofTexts (Text.cutLines (Text.uniformLineEnds t))) tree report tree') ∧
    ((¬∃ t : Text, t.Encodable ∧ content = Utf8.encode t) →
      ∃ e, Utf8.decode false content = .error e ∧ report = a.faulted [.begin] (.undecodable e) ∧
        tree' = tree) := by
  intro report tree'
  have hexits (t : Text) (ht : t.Encodable) (hcontent : content = Utf8.encode t) :
      Exits a (.ofTexts (Text.cutLines (Text.uniformLineEnds t))) tree report tree' :=
    exits_of_encode harguments (hcontent ▸ hinput) ht hnfa hdfa
  cases hdecode : Utf8.decode false content with
  | ok t =>
    obtain ⟨ht, hcontent⟩ := Utf8.decode_eq_ok_iff.mp hdecode
    exact ⟨iff_of_true (hexits t ht hcontent).exists_code ⟨t, ht, hcontent⟩, hexits,
      fun hnone => absurd ⟨t, ht, hcontent⟩ hnone⟩
  | error e =>
    have hnone : ¬∃ t : Text, t.Encodable ∧ content = Utf8.encode t := by
      rintro ⟨t, ht⟩
      rw [Utf8.decode_eq_ok_iff.mpr ht] at hdecode
      cases hdecode
    have hrun : (run disk arguments).run tree = (a.faulted [.begin] (.undecodable e), tree) :=
      (run_eq_runWith harguments hinput).trans (runWith_of_decode_error hdecode)
    have hreport : report = a.faulted [.begin] (.undecodable e) := congrArg Prod.fst hrun
    refine ⟨iff_of_false ?_ hnone, hexits, fun _ => ⟨e, rfl, hreport, congrArg Prod.snd hrun⟩⟩
    rintro ⟨code, hcode⟩
    rw [hreport] at hcode
    cases hcode

/-! ### A repetition of a loop and a literal -/

/-- The root, and in it a file with content. -/
def FileTree.single (content : Bytes) : FileTree where
  entries := [([], .directory), (["in.txt"], .file content)]
  current := []

/-- Arguments that give no more than an expression and an input file. -/
def Arguments.plain : Arguments where
  regex := "(a*b)*"
  inputFile := some (.ofName "in.txt")
  verbose := false
  nfaFile := some (.ofName "nfa.dot")
  dfaFile := some (.ofName "dfa.dot")

theorem read_plain : Arguments.read ["(a*b)*", "in.txt"] = .ok .plain := by
  decide +kernel

theorem reads_single (content : Bytes) :
    (FileTree.single content).Reads Arguments.plain.inputFile content :=
  ⟨_, rfl, by decide, rfl⟩

theorem writes_single_nfaFile (content : Bytes) :
    (FileTree.single content).Writes Arguments.plain.nfaFile ["nfa.dot"] :=
  ⟨⟨_, rfl, by decide, rfl⟩, nofun⟩

theorem writes_single_dfaFile (content : Bytes) :
    (FileTree.single content).Writes Arguments.plain.dfaFile ["dfa.dot"] :=
  ⟨⟨_, rfl, by decide, rfl⟩, nofun⟩

/-- The one line is described, which is told in the output. -/
theorem run_encode_star_of_star :
    let tree := FileTree.single (Utf8.encode "ab\x0D\n")
    let after := (run disk ["(a*b)*", "in.txt"]).run tree
    after.1.ending = .exit 0 ∧
      Results "(a*b)*" ["ab"] tree ["nfa.dot"] ["dfa.dot"] after.1 after.2 := by
  intro tree after
  have hlines : Text.cutLines (Text.uniformLineEnds "ab\x0D\n") = ["ab"] := by decide
  obtain ⟨hiff, hresults, -⟩ := run_encode read_plain (reads_single _)
    (Text.encodable_ofString "ab\x0D\n") (writes_single_nfaFile _) (writes_single_dfaFile _)
    (by decide)
  rw [hlines] at hiff hresults
  have hending : after.1.ending = .exit 0 := hiff.mpr ⟨_, Regex.derives_star_of_star⟩
  exact ⟨hending, hresults hending⟩

theorem run_exits_iff_star_of_star :
    let after := (run disk ["(a*b)*", "in.txt"]).run (.single (Utf8.encode "ab"))
    ∃ code, after.1.ending = .exit code :=
  (run_exits_iff read_plain (reads_single _) (writes_single_nfaFile _)
    (writes_single_dfaFile _)).1.mpr ⟨"ab", Text.encodable_ofString "ab", rfl⟩

/-- A byte that starts nothing leaves a run without an exit code. -/
theorem run_undecodable :
    let tree := FileTree.single [0xFF]
    Arguments.read ["(a*b)*", "in.txt"] = .ok .plain ∧
      tree.Reads Arguments.plain.inputFile [0xFF] ∧
      tree.Writes Arguments.plain.nfaFile ["nfa.dot"] ∧
      tree.Writes Arguments.plain.dfaFile ["dfa.dot"] ∧
      ∀ code, ((run disk ["(a*b)*", "in.txt"]).run tree).1.ending ≠ .exit code := by
  intro tree
  refine ⟨read_plain, reads_single _, writes_single_nfaFile _, writes_single_dfaFile _, ?_⟩
  intro code
  have hdecode : Utf8.decode false [0xFF] = .error ⟨.utf8, .invalidStart, 0, 1, 0xFF⟩ := by decide
  rw [run_eq_runWith read_plain (reads_single _), runWith_of_decode_error hdecode]
  nofun

end RegexAutomata.Command
