/-
The statistics of an answer.

An answer with a nondeterministic automaton tells its size, counted in the dictionary form. There
the edges of a state are sorted and states without edges have no entry, but every edge is still there.

* `Nfa.transitionCount_toDictionary`, `Nfa.epsilonCount_toDictionary` — the counts of the dictionary
  form are those of the list of edges;
* `statistics_toNfa` — the statistics are those of the text of the expression.
-/
import RegexAutomata.Proofs.Regex.Size
import RegexAutomata.Proofs.Service.Respond

namespace RegexAutomata

namespace Nfa

/-- How many targets there are in rows whose symbols have a property. -/
def weight {α : Type} (P : Symbol → Bool) (rows : List (Symbol × List α)) : Nat :=
  (rows.map fun r => if P r.1 then r.2.length else 0).sum

theorem length_flatMap_filter {α : Type} (P : Symbol → Bool) (rows : List (Symbol × List α)) :
    ((rows.filter fun r => P r.1).flatMap Prod.snd).length = weight P rows := by
  induction rows with
  | nil => rfl
  | cons r rest ih =>
    rw [weight, List.map_cons, List.sum_cons, ← weight, ← ih]
    cases hP : P r.1 <;> simp [hP]

theorem weight_flatMap {α β : Type} (P : Symbol → Bool) (f : β → List (Symbol × List α))
    (l : List β) : weight P (l.flatMap f) = (l.map fun b => weight P (f b)).sum := by
  induction l with
  | nil => rfl
  | cons b rest ih =>
    rw [List.flatMap_cons, List.map_cons, List.sum_cons, ← ih, weight, weight, weight,
      List.map_append, List.sum_append]

/-- Sorting keeps the number of targets. -/
theorem weight_toRows (P : Symbol → Bool) (es : Edges) : weight P es.toRows = weight P es := by
  have hperm := (List.mergeSort_perm es fun e f => (compare e.1 f.1).isLE).map fun r =>
    if P r.1 then r.2.length else 0
  rw [weight, Edges.toRows, List.map_map, weight, ← hperm.sum_nat]
  refine congrArg List.sum (List.map_congr_left fun r _ => ?_)
  simp

/-- States without edges do not matter. -/
theorem rows_toDictionary (n : Nfa) :
    n.toDictionary.rows = n.nodes.toList.flatMap fun node => node.edges.toRows := by
  have hentries (l : List Node) (k : Nat) :
      (((l.zipIdx k).filter fun e => !e.1.edges.isEmpty).map fun e =>
        (Text.ofNat e.2, e.1.edges.toRows)).flatMap Prod.snd =
        l.flatMap fun node => node.edges.toRows := by
    induction l generalizing k with
    | nil => rfl
    | cons node rest ih =>
      rw [List.zipIdx_cons, List.flatMap_cons, ← ih (k + 1)]
      by_cases hnode : node.edges = []
      · simp [hnode, Edges.toRows]
      · simp [hnode]
  exact hentries n.nodes.toList 0

theorem map_snd_transitions (n : Nfa) :
    n.transitions.map Prod.snd = n.nodes.toList.flatMap Node.edges := by
  have hnode (node : Node) (q : Nat) :
      (node.edges.map (Prod.mk (q : Int))).map Prod.snd = node.edges := by
    rw [List.map_map]
    exact List.map_id _
  rw [transitions, List.map_flatMap]
  conv_rhs => rw [← List.zipIdx_map_fst 0 n.nodes.toList, List.flatMap_map]
  exact List.flatMap_congr fun e _ => hnode e.1 e.2

/-- The rows of the dictionary form have as many targets as there are edges. -/
theorem weight_rows_toDictionary (n : Nfa) (P : Symbol → Bool) :
    weight P n.toDictionary.rows = n.edges.countP fun e => P e.2.1 := by
  have hrow (t : Int × Symbol × List Int) :
      (t.2.2.map fun q => (t.1, t.2.1, q)).countP (fun e => P e.2.1) =
        if P t.2.1 then t.2.2.length else 0 := by
    rw [List.countP_map]
    cases hP : P t.2.1 <;> simp [Function.comp_def, hP]
  have hedges : n.edges.countP (fun e => P e.2.1) = weight P (n.transitions.map Prod.snd) := by
    rw [edges, List.countP_flatMap, weight, List.map_map]
    exact congrArg List.sum (List.map_congr_left fun t _ => hrow t)
  rw [hedges, map_snd_transitions, rows_toDictionary, weight_flatMap, weight_flatMap]
  simp only [weight_toRows]

theorem transitionCount_toDictionary (n : Nfa) :
    n.toDictionary.transitionCount = n.edges.length := by
  have hcount := n.weight_rows_toDictionary fun _ => true
  rw [← length_flatMap_filter, List.filter_true, List.countP_true] at hcount
  exact hcount

theorem epsilonCount_toDictionary (n : Nfa) :
    n.toDictionary.epsilonCount = n.edges.countP fun e => e.2.1 = epsilon := by
  have hcount := n.weight_rows_toDictionary fun a => a = epsilon
  rw [← length_flatMap_filter] at hcount
  exact hcount

end Nfa

namespace Service

open Json (Value)
open Regex (Derives Expr maxDepth)

/-- The statistics that tell a size. All edges are transitions. -/
def Endpoint.statistics (t : Tally) : Value :=
  object [("states_count", count t.states), ("transitions_count", count (t.reading + t.silent)),
    ("epsilon_transitions_count", count t.silent)]

theorem Endpoint.statistics_nfaBody (content : Content) (n : Nfa) :
    (nfaBody content n).member? "statistics" = some (statistics n.tally) := by
  have hstates : n.toDictionary.states.length = n.tally.states := by
    rw [Nfa.toDictionary, List.length_map, List.length_range]
    rfl
  have hedges : n.toDictionary.transitionCount = n.tally.reading + n.tally.silent := by
    have hsplit : n.edges.length = n.tally.silent +
        n.edges.countP fun e => ¬(decide (e.2.1 = epsilon) = true) :=
      List.length_eq_countP_add_countP fun e : Int × Symbol × Int => e.2.1 = epsilon
    have hreading :
        n.edges.countP (fun e => ¬(decide (e.2.1 = epsilon) = true)) = n.tally.reading := by
      simp [Nfa.tally, Tally.ofEdges]
    rw [n.transitionCount_toDictionary, hsplit, hreading, Nat.add_comm]
  have hsilent : n.toDictionary.epsilonCount = n.tally.silent := n.epsilonCount_toDictionary
  rw [statistics, ← hstates, ← hedges, ← hsilent]
  rfl

/-- The size of an automaton that was built from a text is told by the text: the literals, the signs
of unions and the stars, together with the joins of its only derivation and the stars whose operand
begins or ends with a starred part. No edge is added twice while the automaton is put together. A
successful answer with the automaton of a text has this size as its statistics. -/
theorem statistics_toNfa :
    (∀ (regex : Text) (alphabet : Alphabet) (n : Nfa), Regex.toNfa regex alphabet = .ok n →
      ∃ e, (∀ e', Derives alphabet .union maxDepth regex e' ↔ e' = e) ∧
        n.Measures (Regex.tally regex e) ∧ n.size ≤ 2 * regex.length ∧
        ∃ f m, e.assembleNew (.empty alphabet) = some (f, m) ∧
          n = { m with start := f.entry, finish := f.exit }) ∧
    ∀ (settings : Settings) (request : Request),
      request.target.path = Utf8.encode "/api/regex-to-nfa/" →
      (respond settings request).status = 200 →
      ∃ v regex n e body, readBody settings request.body = .ok v ∧
        v.member? "regex" = some (.string regex) ∧ Regex.toNfa regex (alphabetIn v) = .ok n ∧
        (∀ e', Derives (alphabetIn v) .union maxDepth regex e' ↔ e' = e) ∧
        respond settings request = .json 200 body ∧
        body.member? "statistics" = some (Endpoint.statistics (Regex.tally regex e)) := by
  have hunique {regex : Text} {alphabet : Alphabet} {e : Expr}
      (he : Derives alphabet .union maxDepth regex e) (e' : Expr) :
      Derives alphabet .union maxDepth regex e' ↔ e' = e :=
    ⟨fun he' => he'.unique he, fun heq => heq ▸ he⟩
  constructor
  · intro regex alphabet n hn
    obtain ⟨e, he⟩ := Regex.exists_derives_of_toNfa hn
    obtain rfl := Regex.eq_toNfa_of_derives hn he
    have hmeasures := (e.tidy_toNfa alphabet).measures
    rw [Regex.tally_toNfa he] at hmeasures
    refine ⟨e, hunique he, hmeasures, ?_, Regex.toNfa_eq_assembleNew he⟩
    rw [hmeasures.states]
    exact Regex.states_tally_le he
  · intro settings request hpath hstatus
    have hroute : (Text.ofString "/api/regex-to-nfa/", Endpoint.toNfa) ∈ Endpoint.routes := by
      decide
    obtain ⟨v, hposts⟩ := exists_posts_of_status hroute hpath hstatus
    obtain ⟨content, n, hcontent, hn, hresponse⟩ :=
      exists_automaton_of_status (fun _ => rfl) hposts hstatus
    have hread := Content.read_of_ofValue hcontent
    rw [hread.alphabet] at hn
    obtain ⟨e, he⟩ := Regex.exists_derives_of_toNfa hn
    refine ⟨v, content.regex, n, e, _, hposts.body, hread.regex, hn, hunique he, hresponse, ?_⟩
    rw [← Regex.tally_toNfa he, ← Regex.eq_toNfa_of_derives hn he]
    exact Endpoint.statistics_nfaBody content n

/-- The inner star of `(a*b)*` loops on its literal, the outer one has states of its own. -/
theorem statistics_toNfa_star_of_star :
    let n := Expr.toNfa (.star (.concat (.star (.literal 'a')) (.literal 'b'))) (.ofTexts ["ab"])
    let request : Request := ⟨⟨Utf8.encode "/api/regex-to-nfa/", []⟩, "POST",
      Utf8.encode "\x7b\"regex\": \"(a*b)*\", \"alphabet\": \"ab\"\x7d"⟩
    Regex.toNfa "(a*b)*" (.ofTexts ["ab"]) = .ok n ∧ n.Measures ⟨6, 2, 7⟩ ∧
      (respond {} request).status = 200 ∧ ∃ body, respond {} request = .json 200 body ∧
        body.member? "statistics" = some (Endpoint.statistics ⟨6, 2, 7⟩) := by
  intro n request
  let v : Value := .object [("regex", .string "(a*b)*"), ("alphabet", .string "ab")]
  have hread : readBody {} request.body = .ok v := by decide +kernel
  have hstatus : (respond {} request).status = 200 := by decide +kernel
  have hn : Regex.toNfa "(a*b)*" (.ofTexts ["ab"]) = .ok n :=
    Regex.toNfa_of_derives Regex.derives_star_of_star
  obtain ⟨hbuilt, hanswered⟩ := statistics_toNfa
  obtain ⟨e, he, hmeasures, -⟩ := hbuilt _ _ _ hn
  obtain ⟨u, regex, m, e', body, hu, hregex, -, he', hbody, hstatistics⟩ :=
    hanswered {} request rfl hstatus
  obtain rfl : v = u := Except.ok.inj (hread.symm.trans hu)
  obtain rfl : "(a*b)*" = regex := Value.string.inj (Option.some.inj hregex)
  obtain rfl := (he _).mp Regex.derives_star_of_star
  obtain rfl := (he' _).mp Regex.derives_star_of_star
  exact ⟨hn, hmeasures, hstatus, body, hbody, hstatistics⟩

end Service

end RegexAutomata
