import FiniteAutomata.Fragment.Basic
import FiniteAutomata.Graph.Lemmas
import FiniteAutomata.Graph.Reachable
import FiniteAutomata.Occurrence
import Std.Data.String.ToNat

/-!
Nondeterministic automata: a graph with an input and an output state. Words are read from the
input state, and the flags of the states say which of them accept. Reachable states without a label
can be given one automatically: they are numbered from one in the order of a depth-first search, and
a number is left out if it is the text of a label that the graph already has.
-/

namespace FiniteAutomata

structure Nfa where
  graph : Graph
  input : Nat
  output : Nat
  input_lt : input < graph.size
  output_lt : output < graph.size

namespace Nfa

/-- An automaton on a graph, whose ends must be states of the graph. -/
def ofGraph (g : Graph) (input output : Nat) : Except Misuse Nfa :=
  if h : input < g.size ∧ output < g.size then .ok ⟨g, input, output, h.1, h.2⟩
  else .error .foreignEnds

/-- Finishes a construction: the input of the fragment becomes the starting state. -/
def ofFragment (g : Graph) (x : Fragment) : Except Misuse Nfa := do
  ofGraph (← g.setStarting x.input true) x.input x.output

def accepts (a : Nfa) (word : List Char) : Bool := a.graph.accepts a.input word

/-- The states reachable from the input in the order in which a depth-first search meets them. -/
def states (a : Nfa) : List Nat := a.graph.reachable a.input

/-- The characters on edges between reachable states. Those of states that are met later come
first. -/
def alphabet (a : Nfa) : List Char :=
  (a.states.reverse.flatMap fun i => (a.graph.state i).symbols.filterMap Symbol.char?).eraseDups

end Nfa

/-! ### Automatic labels -/

/-- The first number after `last` whose text is not taken. There is one, because every number that
is left out is the value of a taken text. -/
def nextFree (taken : List String) (last : Nat) : Nat :=
  if (last + 1).repr ∈ taken then nextFree taken (last + 1) else last + 1
termination_by taken.countP fun text => last < text.toNat?.getD 0
decreasing_by
  next h =>
  refine countP_lt_countP (fun text above => ?_) h (by simp) (by simp)
  rw [decide_eq_true_eq] at above ⊢
  omega

namespace Graph

/-- The texts of all labels in a graph, also those of states that cannot be reached. -/
def labelTexts (g : Graph) : List String :=
  g.states.toList.filterMap fun s => s.label.map Label.text

/-- Numbers the states of a list that have no label, each with the first number after the one before
whose text is not taken. The first number comes after `last`. -/
def withFreeNumbers (taken : List String) (g : Graph) (last : Nat) : List Nat → Graph
  | [] => g
  | i :: states =>
    match (g.state i).label with
    | some _ => withFreeNumbers taken g last states
    | none =>
      let n := nextFree taken last
      withFreeNumbers taken (g.withLabel i (.number n)) n states

theorem size_withFreeNumbers (taken : List String) (g : Graph) (last : Nat) (states : List Nat) :
    (g.withFreeNumbers taken last states).size = g.size := by
  fun_induction withFreeNumbers taken g last states with
  | case1 => rfl
  | case2 _ _ _ _ _ _ ih => exact ih
  | case3 _ _ _ _ _ _ ih => exact ih.trans (size_withLabel ..)

end Graph

namespace Nfa

def labelled (a : Nfa) : Nfa where
  graph := a.graph.withFreeNumbers a.graph.labelTexts 0 a.states
  input := a.input
  output := a.output
  input_lt := by
    rw [Graph.size_withFreeNumbers]
    exact a.input_lt
  output_lt := by
    rw [Graph.size_withFreeNumbers]
    exact a.output_lt

/-- Labels the reachable states and lists them in the order of the search. -/
def labelStates (a : Nfa) : List Nat × Nfa := (a.states, a.labelled)

end Nfa

end FiniteAutomata
