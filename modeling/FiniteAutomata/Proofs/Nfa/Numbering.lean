import FiniteAutomata.Proofs.Graph.DepthFirst
import FiniteAutomata.Proofs.Nfa.Labels
import Mathlib.Data.Nat.Nth

/-!
What automatic labelling does to an automaton. The unlabelled states get the smallest numbers that
are free, in the order in which a recursive search meets them; nothing else changes, and labelling
again changes nothing at all.
-/

namespace FiniteAutomata

/-! ### The smallest free numbers -/

section FreeNumbers

variable {taken : List String} {last count k n : Nat}

/-- A positive number whose text is not taken. -/
def IsFree (taken : List String) (n : Nat) : Prop := 0 < n ∧ n.repr ∉ taken

instance : DecidablePred (IsFree taken) :=
  fun n => inferInstanceAs (Decidable (0 < n ∧ n.repr ∉ taken))

theorem isFree_nextFree (taken : List String) (last : Nat) : IsFree taken (nextFree taken last) :=
  ⟨Nat.zero_lt_of_lt (lt_nextFree taken last), nextFree_not_taken taken last⟩

theorem infinite_isFree (taken : List String) : {n | IsFree taken n}.Infinite :=
  Set.infinite_of_forall_exists_gt fun last =>
    ⟨nextFree taken last, isFree_nextFree taken last, lt_nextFree taken last⟩

/-- None of the numbers that are left out is free. -/
theorem count_nextFree (taken : List String) (last : Nat) :
    Nat.count (IsFree taken) (nextFree taken last) = Nat.count (IsFree taken) (last + 1) := by
  fun_induction nextFree taken last with
  | case1 last out ih => rw [ih, Nat.count_succ, if_neg fun free => free.2 out, Nat.add_zero]
  | case2 => rfl

theorem count_freeNumbers (number : (freeNumbers taken last count)[k]? = some n) :
    IsFree taken n ∧
      Nat.count (IsFree taken) n = Nat.count (IsFree taken) (last + 1) + k := by
  induction count generalizing last k with
  | zero => cases number
  | succ count ih =>
    cases k with
    | zero =>
      obtain rfl : nextFree taken last = n := Option.some.inj number
      exact ⟨isFree_nextFree taken last, count_nextFree taken last⟩
    | succ k =>
      obtain ⟨free, counted⟩ := ih number
      rw [Nat.count_succ, if_pos (isFree_nextFree taken last), count_nextFree] at counted
      exact ⟨free, by omega⟩

theorem eq_nth_of_getElem?_freeNumbers (number : (freeNumbers taken 0 count)[k]? = some n) :
    n = Nat.nth (IsFree taken) k := by
  obtain ⟨free, counted⟩ := count_freeNumbers number
  have zero : Nat.count (IsFree taken) 1 = 0 := by
    rw [Nat.count_succ, Nat.count_zero, if_neg fun free => Nat.lt_irrefl 0 free.1]
  rw [zero, Nat.zero_add] at counted
  rw [← counted, Nat.nth_count free]

end FreeNumbers

namespace Graph

variable {g : Graph}

/-- A positive number whose text is not that of a label in the graph. -/
def Free (g : Graph) (n : Nat) : Prop :=
  0 < n ∧ ∀ i l, (g.state i).label = some l → l.text ≠ n.repr

theorem free_eq (g : Graph) : g.Free = IsFree g.labelTexts := by
  funext n
  rw [Free, IsFree, mem_labelTexts]
  simp only [not_exists, not_and, ne_eq]

/-- Numbers change nothing but labels. -/
theorem state_withNumbers (g : Graph) (states numbers : List Nat) (i : Nat) :
    (g.withNumbers states numbers).state i =
      { g.state i with label := ((g.withNumbers states numbers).state i).label } := by
  apply withNumbers_induction (P := fun g' => g'.state i =
    { g.state i with label := (g'.state i).label }) _ rfl
  intro g' j label same
  rw [withLabel, state_update]
  split
  · next at_j => rw [← at_j.1, same]
  · exact same

end Graph

namespace Nfa

variable {a : Nfa} {i : Nat}

theorem state_labelled (a : Nfa) (i : Nat) : a.labelled.graph.state i =
    { a.graph.state i with label := (a.labelled.graph.state i).label } := by
  rw [graph_labelled]
  exact Graph.state_withNumbers ..

theorem states_labelled (a : Nfa) : a.labelled.states = a.states := by
  have successors : a.labelled.graph.successors = a.graph.successors := by
    funext i
    rw [Graph.successors, state_labelled]
    rfl
  rw [states, states, Graph.reachable_eq, Graph.reachable_eq, successors]
  show Search.preorder _ (.below (a.graph.withFreeNumbers ..).size) _ = _
  rw [Graph.size_withFreeNumbers]
  rfl

/-- The automaton `b` is `a` where the states of a list that have no label are numbered. They get
the smallest free numbers in the order of the list. -/
structure Numbers (a : Nfa) (states : List Nat) (b : Nfa) : Prop where
  input : b.input = a.input
  output : b.output = a.output
  size : b.graph.size = a.graph.size
  kept : ∀ i, ¬ (i ∈ states ∧ (a.graph.state i).label = none) → b.graph.state i = a.graph.state i
  numbered : ∀ k i, (states.filter fun i => (a.graph.state i).label.isNone)[k]? = some i →
    b.graph.state i =
      { a.graph.state i with label := some (.number (Nat.nth a.graph.Free k)) }
  fresh : ∀ i ∈ states, (a.graph.state i).label = none → ∀ j ≠ i, ∀ l m,
    (b.graph.state i).label = some l → (b.graph.state j).label = some m → l.text ≠ m.text

theorem numbers_labelled (a : Nfa) : a.Numbers a.states a.labelled where
  input := rfl
  output := rfl
  size := Graph.size_withFreeNumbers ..
  kept i other := by
    have unlisted : i ∉ a.unlabelled := by
      rw [unlabelled, List.mem_filter, Option.isNone_iff_eq_none]
      exact other
    rw [state_labelled, label_labelled_of_not_mem unlisted]
  numbered k i state := by
    obtain ⟨n, number⟩ := exists_number state
    rw [state_labelled, label_labelled_of_getElem? state number, Graph.free_eq,
      eq_nth_of_getElem?_freeNumbers number]
  fresh i member unlabelled j ne l m first second := by
    have listed := mem_unlabelled.mpr ⟨mem_states.mp member, unlabelled⟩
    exact text_ne_of_mem_unlabelled listed ne first second

/-- Labelling lists the reachable states as a recursive search meets them and numbers those without
a label. Labelling again gives the same list and leaves the automaton as it is. -/
theorem labelStates_outcome (a : Nfa) :
    a.labelStates.1 = Search.descend a.graph.successors (.below a.graph.size) [a.input] ∧
    (∀ i, i ∈ a.labelStates.1 ↔ a.graph.Reaches a.input i) ∧
    {n | a.graph.Free n}.Infinite ∧ a.Numbers a.labelStates.1 a.labelStates.2 ∧
    a.labelStates.2.labelStates = a.labelStates := by
  refine ⟨?_, fun i => mem_states, ?_, a.numbers_labelled, ?_⟩
  · exact (Graph.reachable_eq a.graph a.input).trans (Search.preorder_eq_descend ..)
  · rw [Graph.free_eq]
    exact infinite_isFree _
  · show (a.labelled.states, a.labelled.labelled) = (a.states, a.labelled)
    rw [states_labelled, labelled_labelled]

/-- Two states without a label and between them one whose label is a number. A state that cannot be
reached has a number as its name. -/
def withPresets : Nfa where
  graph :=
    let states := ((Graph.empty.add false).add false (some (.number 1))).add true
    ((states.add false (some (.name "2"))).withEdge 0 (.char 'a') 1).withEdge 1 .epsilon 2
  input := 0
  output := 2
  input_lt := by decide
  output_lt := by decide

example : withPresets.labelStates.1.map withPresets.labelStates.2.graph.label =
    [.ok (.number 3), .ok (.number 1), .ok (.number 4)] := by cbv

end Nfa

end FiniteAutomata
