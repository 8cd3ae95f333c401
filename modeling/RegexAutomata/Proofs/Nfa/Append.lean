/-
One automaton behind another.

`n.append m` has the states of `n` and after them those of `m`, with numbers that go on where those
of `n` end. Between the two parts there are no edges.

* `edge_append_left`, `edge_append_right` — each part keeps its edges;
* `newState_append`, `link_append` — a step that builds on the second part can be made before the
  parts are put together;
* `link_append_left` — so can a new edge in the first part;
* `join_append`, `choose_append`, `star_append` — and so can the fragments of an expression.
-/
import RegexAutomata.Proofs.Nfa.Fragment

namespace RegexAutomata.Nfa

variable {n m : Nfa}

/-- Automata that agree in what is stored for each state, and in all else, are equal. -/
theorem ext_node? (halphabet : n.alphabet = m.alphabet) (hstart : n.start = m.start)
    (hfinish : n.finish = m.finish) (hremembered : n.remembered = m.remembered)
    (hnode : ∀ q, n.node? q = m.node? q) : n = m := by
  have hnodes : n.nodes = m.nodes := by
    refine Array.ext_getElem? fun i => ?_
    have := hnode i
    simpa [node?] using this
  cases n
  cases m
  simp_all

/-! ### Renumbering -/

/-- Edges whose targets got higher numbers. -/
def Edges.shift (k : Int) (es : Edges) : Edges := es.map fun (a, ts) => (a, ts.map (· + k))

namespace Edges

variable (k : Int) (a : Symbol) (q : Int) (es : Edges)

theorem targets_shift : (es.shift k).targets a = (es.targets a).map (· + k) := by
  rw [targets, shift, Keyed.lookup_map fun ts : List Int => ts.map (· + k), targets]
  cases es.lookup a <;> rfl

theorem add_shift : (es.shift k).add a (q + k) = (es.add a q).shift k := by
  have hkey (e : Symbol × List Int) : Prod.fst (e.1, e.2.map (· + k)) = e.1 := rfl
  rw [add, targets_shift, add, shift, shift, Keyed.map_put hkey, List.map_append]
  rfl

theorem shift_shift (j : Int) : (es.shift j).shift k = es.shift (j + k) := by
  simp [shift, Function.comp_def, Int.add_assoc]

theorem isEmpty_shift : (es.shift k).isEmpty = es.isEmpty := by
  simp [shift]

end Edges

/-- What is stored for a state, with higher numbers for the targets of its edges. -/
def Node.shift (k : Int) (node : Node) : Node := { node with edges := node.edges.shift k }

/-- A fragment whose states got higher numbers. -/
def Fragment.shift (k : Int) (f : Fragment) : Fragment := ⟨f.entry + k, f.exit + k⟩

theorem Fragment.shift_shift (f : Fragment) (j k : Int) :
    (f.shift j).shift k = f.shift (j + k) := by
  simp [Fragment.shift, Int.add_assoc]

/-! ### Putting automata together -/

/-- The states of two automata, those of the second after those of the first. -/
def append (n m : Nfa) : Nfa :=
  { n with nodes := n.nodes ++ m.nodes.map (Node.shift n.size), remembered := ∅ }

@[simp] theorem size_append (n m : Nfa) : (n.append m).size = n.size + m.size := by
  simp [append, size]

theorem node?_append (n m : Nfa) (q : Int) :
    (n.append m).node? q =
      if q < n.size then n.node? q else (m.node? (q - n.size)).map (Node.shift n.size) := by
  by_cases hq : 0 ≤ q
  · have hsize : n.nodes.size = n.size := rfl
    simp only [node?, append, hq, ↓reduceIte, Array.getElem?_append, Array.getElem?_map, hsize]
    by_cases h : q < n.size
    · rw [if_pos (by omega), if_pos h]
    · have hsub : (q - n.size).toNat = q.toNat - n.size := by omega
      rw [if_neg (by omega), if_neg h, if_pos (by omega), hsub]
  · simp [node?, hq, show q < n.size by omega]

theorem node?_append_left (m : Nfa) {q : Int} (hq : q < n.size) :
    (n.append m).node? q = n.node? q := by
  rw [node?_append, if_pos hq]

theorem node?_append_right (n : Nfa) {q : Int} (hq : 0 ≤ q) :
    (n.append m).node? (q + n.size) = (m.node? q).map (Node.shift n.size) := by
  rw [node?_append, if_neg (by omega), Int.add_sub_cancel]

theorem targets_append_left (m : Nfa) {q : Int} (hq : q < n.size) (a : Symbol) :
    (n.append m).targets q a = n.targets q a := by
  rw [targets, targets, node?_append_left m hq]

theorem targets_append_right (n : Nfa) {q : Int} (hq : 0 ≤ q) (a : Symbol) :
    (n.append m).targets (q + n.size) a = (m.targets q a).map (· + (n.size : Int)) := by
  rw [targets, targets, node?_append_right n hq]
  cases m.node? q with
  | none => rfl
  | some node => exact Edges.targets_shift _ _ _

theorem edge_append_left {p q : Int} {a : Symbol} (hp : p < n.size) :
    (n.append m).Edge p a q ↔ n.Edge p a q := by
  rw [Edge, targets_append_left m hp, Edge]

theorem edge_append_right {p q : Int} {a : Symbol} (hp : 0 ≤ p) :
    (n.append m).Edge (p + n.size) a (q + n.size) ↔ m.Edge p a q := by
  rw [Edge, targets_append_right n hp, Edge]
  simp

/-- An edge from the second part ends in the second part. -/
theorem exists_of_edge_append_right {p q : Int} {a : Symbol} (hp : 0 ≤ p)
    (h : (n.append m).Edge (p + n.size) a q) : ∃ r, m.Edge p a r ∧ q = r + n.size := by
  rw [Edge, targets_append_right n hp, List.mem_map] at h
  obtain ⟨r, hr, rfl⟩ := h
  exact ⟨r, hr, rfl⟩

/-- The edges of both parts, and no others. -/
theorem edge_append_iff {p q : Int} {a : Symbol} :
    (n.append m).Edge p a q ↔
      n.Edge p a q ∨ ∃ r s, m.Edge r a s ∧ p = r + n.size ∧ q = s + n.size := by
  constructor
  · intro he
    by_cases hp : p < n.size
    · exact .inl ((edge_append_left hp).mp he)
    · rw [← Int.sub_add_cancel p n.size] at he
      obtain ⟨s, hs, rfl⟩ := exists_of_edge_append_right (by omega) he
      exact .inr ⟨_, s, hs, by omega, rfl⟩
  · rintro (he | ⟨r, s, he, rfl, rfl⟩)
    · exact (edge_append_left he.isAllocated.2).mpr he
    · exact (edge_append_right he.isAllocated.1).mpr he

theorem hasIncoming_append_right (n : Nfa) {q : Int} (hq : 0 ≤ q) :
    (n.append m).hasIncoming (q + n.size) = m.hasIncoming q := by
  rw [hasIncoming, hasIncoming, node?_append_right n hq]
  cases m.node? q <;> rfl

theorem hasOutgoing_append_right (n : Nfa) {q : Int} (hq : 0 ≤ q) :
    (n.append m).hasOutgoing (q + n.size) = m.hasOutgoing q := by
  rw [hasOutgoing, hasOutgoing, node?_append_right n hq]
  cases m.node? q with
  | none => rfl
  | some node => simp [Node.shift, Edges.isEmpty_shift]

theorem append_assoc (n m l : Nfa) : (n.append m).append l = n.append (m.append l) := by
  have hshift : Node.shift ((n.append m).size : Nat) = Node.shift n.size ∘ Node.shift m.size := by
    funext node
    simp [Node.shift, Edges.shift_shift, Int.add_comm]
  rw [append, hshift]
  simp [append]

/-! ### Building on one part -/

theorem newState_append (n m : Nfa) :
    (n.append m).newState = (m.newState.1 + n.size, n.append m.newState.2) := by
  have hnode : ({} : Node) = Node.shift n.size {} := rfl
  refine Prod.ext ?_ ?_
  · simp [newState, Int.add_comm]
  · simp only [newState, append, Array.map_push, ← hnode, Array.push_append]

/-- A new edge makes an automaton forget what it remembers. -/
theorem remembered_link {p q : Int} {a : Symbol} (h : ¬n.Edge p a q) :
    (n.link p a q).remembered = ∅ := by
  rw [link, if_neg (by simpa [Edge] using h)]

@[simp] theorem start_link (n : Nfa) (p : Int) (a : Symbol) (q : Int) :
    (n.link p a q).start = n.start := by
  unfold link
  split <;> rfl

@[simp] theorem finish_link (n : Nfa) (p : Int) (a : Symbol) (q : Int) :
    (n.link p a q).finish = n.finish := by
  unfold link
  split <;> rfl

/-- Edges from different states can be added in either order. -/
theorem link_comm {p q r s : Int} {a b : Symbol} (hp : n.IsAllocated p) (hq : n.IsAllocated q)
    (hr : n.IsAllocated r) (hs : n.IsAllocated s) (hpr : p ≠ r) :
    (n.link p a q).link r b s = (n.link r b s).link p a q := by
  -- neither edge is the other one, so each is new after the other exactly if it was new before
  have hfirst : (n.link r b s).Edge p a q ↔ n.Edge p a q := by
    rw [edge_link hr]
    exact or_iff_left fun h => hpr h.1
  have hsecond : (n.link p a q).Edge r b s ↔ n.Edge r b s := by
    rw [edge_link hp]
    exact or_iff_left fun h => hpr h.1.symm
  by_cases he : n.Edge p a q
  · rw [link_eq_self he, link_eq_self (hfirst.mpr he)]
  · by_cases he' : n.Edge r b s
    · rw [link_eq_self he', link_eq_self (hsecond.mpr he')]
    · have hne := hfirst.not.mpr he
      have hne' := hsecond.not.mpr he'
      refine ext_node? (by simp) (by simp) (by simp) ?_ fun t => ?_
      · rw [remembered_link hne, remembered_link hne']
      · rw [node?_link hr.1 hs.1 hne', node?_link hp.1 hq.1 he, node?_link hp.1 hq.1 hne,
          node?_link hr.1 hs.1 he', Option.map_map, Option.map_map]
        congr 1
        funext node
        simp only [Function.comp_apply, Node.mk.injEq]
        constructor
        · by_cases htp : t = p
          · have htr : t ≠ r := htp ▸ hpr
            rw [if_neg htr, if_neg htr]
          · rw [if_neg htp, if_neg htp]
        · split_ifs <;> rfl

theorem link_append (n : Nfa) {p q : Int} (hp : 0 ≤ p) (hq : 0 ≤ q) (a : Symbol) :
    (n.append m).link (p + n.size) a (q + n.size) = n.append (m.link p a q) := by
  by_cases he : m.Edge p a q
  · rw [link_eq_self he, link_eq_self ((edge_append_right hp).mpr he)]
  · have he' : ¬(n.append m).Edge (p + n.size) a (q + n.size) := (edge_append_right hp).not.mpr he
    refine ext_node? (alphabet_link ..) (start_link ..) (finish_link ..) (remembered_link he') ?_
    intro r
    rw [node?_link (by omega) (by omega) he']
    -- a state of the first part is not concerned; one of the second part is compared in it
    by_cases hr : r < n.size
    · rw [node?_append_left _ hr, node?_append_left _ hr]
      have hrp : r ≠ p + n.size := by omega
      have hrq : r ≠ q + n.size := by omega
      cases n.node? r <;> simp [hrp, hrq]
    · obtain ⟨s, hs, rfl⟩ : ∃ s, 0 ≤ s ∧ r = s + n.size := ⟨r - n.size, by omega, by omega⟩
      rw [node?_append_right n hs, node?_append_right n hs, node?_link hp hq he]
      cases m.node? s with
      | none => rfl
      | some node =>
        simp only [Option.map_some, Int.add_left_inj, Node.shift]
        split_ifs <;> simp [Edges.add_shift]

/-- It makes no difference whether an edge in the first part is added before or after the second
part. -/
theorem link_append_left (m : Nfa) {p q : Int} (hp : n.IsAllocated p) (hq : n.IsAllocated q)
    (a : Symbol) : (n.link p a q).append m = (n.append m).link p a q := by
  by_cases he : n.Edge p a q
  · rw [link_eq_self he, link_eq_self ((edge_append_left hp.2).mpr he)]
  · have he' : ¬(n.append m).Edge p a q := (edge_append_left hp.2).not.mpr he
    refine ext_node? ?_ ?_ ?_ (remembered_link he').symm fun r => ?_
    · rw [alphabet_link]
      exact alphabet_link ..
    · rw [start_link]
      exact start_link ..
    · rw [finish_link]
      exact finish_link ..
    · rw [node?_link hp.1 hq.1 he', node?_append, node?_append, size_link]
      by_cases hr : r < n.size
      · rw [if_pos hr, if_pos hr, node?_link hp.1 hq.1 he]
      · have hrp : r ≠ p := fun e => hr (e ▸ hp.2)
        have hrq : r ≠ q := fun e => hr (e ▸ hq.2)
        rw [if_neg hr, if_neg hr]
        cases m.node? (r - n.size) <;> simp [hrp, hrq]

/-! ### Building fragments -/

/-- A fragment and its automaton behind another automaton. -/
def beside (n : Nfa) (r : Fragment × Nfa) : Fragment × Nfa := (r.1.shift n.size, n.append r.2)

theorem beside_beside (n m : Nfa) (r : Fragment × Nfa) :
    (n.append m).beside r = n.beside (m.beside r) := by
  refine Prod.ext ?_ (append_assoc n m r.2)
  simp [beside, Fragment.shift_shift, Int.add_comm]

theorem literal_append (n m : Nfa) (a : Symbol) :
    literal a (n.append m) = n.beside (literal a m) := by
  have hlink := link_append (m := m.newState.2.newState.2) n (Int.natCast_nonneg m.size)
    (Int.natCast_nonneg (m.size + 1)) a
  refine Prod.ext ?_ ?_
  · simp [literal, beside, newState_append, Fragment.shift]
  · simpa [literal, beside, newState_append] using hlink

/-- The edge of a literal is new, and so the automaton forgets what it remembers. -/
theorem not_edge_newState_newState (n : Nfa) (a : Symbol) (q : Int) :
    ¬n.newState.2.newState.2.Edge n.size a q := by
  intro h
  have := (edge_newState.mp (edge_newState.mp h)).isAllocated.2
  omega

theorem literal_eq_beside (n : Nfa) (a : Symbol) :
    literal a n = n.beside (literal a (Nfa.empty ∅)) := by
  have hforget : n.append (Nfa.empty ∅) = { n with remembered := ∅ } := by
    simp [append, Nfa.empty]
  have hlink (n : Nfa) : (literal a n).2 =
      { n.newState.2.newState.2 with
        nodes := (n.newState.2.newState.2.nodes.modify (n.size : Int).toNat fun node =>
            { node with edges := node.edges.add a (n.size + 1 : Nat) }).modify
          ((n.size + 1 : Nat) : Int).toNat fun node => { node with entered := true }
        remembered := ∅ } := by
    have := not_edge_newState_newState n a (n.size + 1 : Nat)
    simp only [Edge] at this
    simp only [literal, newState_fst, size_newState, link, List.contains_eq_mem, this]
    rfl
  rw [← literal_append, hforget]
  refine Prod.ext rfl ?_
  rw [hlink, hlink]
  rfl

theorem join_append (n : Nfa) {f g : Fragment} (hf : m.Holds f) (hg : m.Holds g) :
    join (f.shift n.size) (g.shift n.size) (n.append m) = n.beside (join f g m) :=
  Prod.ext rfl (link_append n hf.exit.1 hg.entry.1 epsilon)

theorem choose_append (n : Nfa) {f g : Fragment} (hf : m.Holds f) (hg : m.Holds g) :
    choose (f.shift n.size) (g.shift n.size) (n.append m) = n.beside (choose f g m) := by
  have h₀ : (0 : Int) ≤ m.size := Int.natCast_nonneg _
  have h₁ : (0 : Int) ≤ (m.newState.2.size : Nat) := Int.natCast_nonneg _
  refine Prod.ext ?_ ?_
  · simp [choose, beside, newState_append, Fragment.shift]
  · simp only [choose, beside, newState_append, Fragment.shift, newState_fst]
    rw [link_append n h₀ hf.entry.1, link_append n h₀ hg.entry.1, link_append n hf.exit.1 h₁,
      link_append n hg.exit.1 h₁]

theorem wrap_append (n : Nfa) {f : Fragment} (hf : m.Holds f) :
    wrap (f.shift n.size) (n.append m) = n.beside (wrap f m) := by
  have h₀ : (0 : Int) ≤ m.size := Int.natCast_nonneg _
  have h₁ : (0 : Int) ≤ (m.newState.2.size : Nat) := Int.natCast_nonneg _
  refine Prod.ext ?_ ?_
  · simp [wrap, beside, newState_append, Fragment.shift]
  · simp only [wrap, beside, newState_append, Fragment.shift, newState_fst]
    rw [link_append n h₀ hf.entry.1, link_append n hf.exit.1 h₁]

theorem loop_append (n : Nfa) {f : Fragment} (hf : m.Holds f) :
    loop (f.shift n.size) (n.append m) = n.beside (loop f m) := by
  refine Prod.ext rfl ?_
  simp only [loop, beside, Fragment.shift]
  rw [link_append n hf.exit.1 hf.entry.1, link_append n hf.entry.1 hf.exit.1]

theorem star_append (n : Nfa) {f : Fragment} (hf : m.Holds f) :
    star (f.shift n.size) (n.append m) = n.beside (star f m) := by
  have hin : (n.append m).hasIncoming (f.shift n.size).entry = m.hasIncoming f.entry :=
    hasIncoming_append_right n hf.entry.1
  have hout : (n.append m).hasOutgoing (f.shift n.size).exit = m.hasOutgoing f.exit :=
    hasOutgoing_append_right n hf.exit.1
  rw [star_eq, star_eq, hin, hout]
  by_cases h : (m.hasIncoming f.entry || m.hasOutgoing f.exit) = true
  · rw [if_pos h, if_pos h, wrap_append n hf]
    exact loop_append n (holds_wrap f m)
  · rw [if_neg h, if_neg h, loop_append n hf]

/-! ### Paths -/

variable {f : Fragment} {S : Int → Prop}

theorem Confined.append_left (hf : n.Confined S f) (m : Nfa) : (n.append m).Confined S f where
  isAllocated hq := isAllocated_mono (by simp) (hf.isAllocated hq)
  stays hp he := hf.stays hp ((edge_append_left (hf.lt_size hp)).mp he)
  entry := hf.entry
  exit := hf.exit

theorem between_append_left (hf : n.Confined S f) (m : Nfa) :
    (n.append m).between f = n.between f := by
  ext w
  rw [mem_between, mem_between]
  constructor
  · refine Path.map (S := S) (f := id) (fun hp he => ?_) hf.entry
    rw [edge_append_left (hf.lt_size hp)] at he
    exact ⟨hf.stays hp he, he⟩
  · exact Path.mono fun he => (edge_append_left he.isAllocated.2).mpr he

theorem confined_append_right (n : Nfa) (h : m.WellFormed) (hf : m.Holds f) :
    (n.append m).Confined (fun q => n.size ≤ q ∧ q < n.size + m.size) (f.shift n.size) := by
  obtain ⟨⟨h₀, h₁⟩, h₂, h₃⟩ := hf
  refine ⟨?_, ?_, ?_, ?_⟩
  · intro q hq
    rw [IsAllocated, size_append]
    omega
  · intro p a q hp he
    rw [← Int.sub_add_cancel p n.size] at he
    obtain ⟨r, hr, rfl⟩ := exists_of_edge_append_right (by omega) he
    have := h.isAllocated hr
    rw [IsAllocated] at this
    omega
  · simp only [Fragment.shift]
    omega
  · simp only [Fragment.shift]
    omega

theorem path_append_right (n : Nfa) (h : m.WellFormed) {p q : Int} {w : Text} (hp : 0 ≤ p) :
    (n.append m).Path (p + n.size) w (q + n.size) ↔ m.Path p w q := by
  constructor
  · intro hw
    have := Path.map (m := m) (S := fun q => (n.size : Int) ≤ q) (f := (· - n.size))
      (fun {p a q} hp he => ?_) (by omega) hw
    · simpa using this
    · rw [← Int.sub_add_cancel p n.size] at he
      obtain ⟨r, hr, rfl⟩ := exists_of_edge_append_right (by omega) he
      have := (h.isAllocated hr).1
      exact ⟨by omega, by simpa using hr⟩
  · refine Path.map (S := fun q => 0 ≤ q) (f := (· + (n.size : Int))) (fun hp he => ?_) hp
    exact ⟨(h.isAllocated he).1, (edge_append_right hp).mpr he⟩

theorem between_append_right (n : Nfa) (h : m.WellFormed) (hf : m.Holds f) :
    (n.append m).between (f.shift n.size) = m.between f := by
  ext w
  exact path_append_right n h hf.entry.1

end RegexAutomata.Nfa
