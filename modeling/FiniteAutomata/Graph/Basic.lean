import FiniteAutomata.Graph.Edges
import FiniteAutomata.Label
import FiniteAutomata.Errors

/-!
Graphs of states. A graph numbers its states from zero and only grows; every edge leads to one of
its states, so a search that starts in the graph never leaves it.
-/

namespace FiniteAutomata

structure State where
  accepting : Bool := false
  starting : Bool := false
  label : Option Label := none
  edges : Edges := .empty

namespace State

def targets (s : State) (a : Symbol) : List Nat := s.edges.targets a

def symbols (s : State) : List Symbol := s.edges.symbols

def successors (s : State) : List Nat := s.edges.successors

end State

structure Graph where
  states : Array State
  targets_lt : ∀ s ∈ states, ∀ j ∈ s.successors, j < states.size

namespace Graph

def empty : Graph := ⟨#[], by simp⟩

def size (g : Graph) : Nat := g.states.size

/-- The state with a given number; a number beyond the graph stands for a state without edges. -/
def state (g : Graph) (i : Nat) : State := g.states.getD i {}

def targets (g : Graph) (i : Nat) (a : Symbol) : List Nat := (g.state i).targets a

def successors (g : Graph) (i : Nat) : List Nat := (g.state i).successors

theorem lt_size_of_mem_targets {g : Graph} {i j : Nat} {a : Symbol} (h : j ∈ g.targets i a) :
    j < g.size := by
  have next : j ∈ (g.state i).successors := Edges.mem_successors.mpr ⟨a, h⟩
  simp only [state, Array.getD_eq_getD_getElem?] at next
  by_cases hi : i < g.states.size
  · rw [Array.getElem?_eq_getElem hi] at next
    exact g.targets_lt _ (Array.getElem_mem hi) j next
  · rw [Array.getElem?_eq_none (Nat.le_of_not_lt hi)] at next
    cases next

def requireState (g : Graph) (i : Nat) : Except Misuse Unit :=
  if i < g.size then .ok () else .error (.noState i)

/-! ### Growing a graph -/

/-- A graph with one more state, whose number is the size of the graph before. -/
def add (g : Graph) (accepting : Bool) (label : Option Label := none) : Graph where
  states := g.states.push { accepting, label }
  targets_lt s hs j hj := by
    rw [Array.size_push]
    rcases Array.mem_push.mp hs with hs | rfl
    · exact Nat.lt_succ_of_lt (g.targets_lt s hs j hj)
    · cases hj

/-- Changes one state. The new edges must lead to states of the graph. -/
def update (g : Graph) (i : Nat) (f : State → State)
    (inside : ∀ s, ∀ j ∈ (f s).successors, j ∈ s.successors ∨ j < g.size) : Graph where
  states := g.states.modify i f
  targets_lt s hs j hj := by
    rw [Array.size_modify]
    obtain ⟨k, hk, rfl⟩ := Array.mem_iff_getElem.mp hs
    rw [Array.size_modify] at hk
    rw [Array.getElem_modify] at hj
    split at hj
    · rcases inside _ j hj with hj | hj
      · exact g.targets_lt _ (Array.getElem_mem hk) j hj
      · exact hj
    · exact g.targets_lt _ (Array.getElem_mem hk) j hj

def withAccepting (g : Graph) (i : Nat) (accepting : Bool) : Graph :=
  g.update i ({ · with accepting }) fun _ _ hj => .inl hj

def withStarting (g : Graph) (i : Nat) (starting : Bool) : Graph :=
  g.update i ({ · with starting }) fun _ _ hj => .inl hj

def withLabel (g : Graph) (i : Nat) (label : Label) : Graph :=
  g.update i ({ · with label := some label }) fun _ _ hj => .inl hj

/-- Adds an edge to its source. An edge to no state is left out. -/
def withEdge (g : Graph) (i : Nat) (a : Symbol) (j : Nat) : Graph :=
  if inside : j < g.size then
    g.update i (fun s => { s with edges := s.edges.add a j }) fun _ k hk => by
      rcases Edges.mem_successors_add.mp hk with hk | rfl
      · exact .inl hk
      · exact .inr inside
  else g

/-! ### Checked changes -/

def setAccepting (g : Graph) (i : Nat) (accepting : Bool) : Except Misuse Graph := do
  g.requireState i
  return g.withAccepting i accepting

def setStarting (g : Graph) (i : Nat) (starting : Bool) : Except Misuse Graph := do
  g.requireState i
  return g.withStarting i starting

/-- Adds an edge. The target is checked before the source. -/
def connect (g : Graph) (i : Nat) (a : Symbol) (j : Nat) : Except Misuse Graph := do
  if g.size ≤ j then throw (.noTarget j)
  g.requireState i
  return g.withEdge i a j

theorem setAccepting_eq_ok {g : Graph} {i : Nat} (accepting : Bool) (hi : i < g.size) :
    g.setAccepting i accepting = .ok (g.withAccepting i accepting) := by
  rw [setAccepting, requireState, if_pos hi]
  rfl

theorem setStarting_eq_ok {g : Graph} {i : Nat} (starting : Bool) (hi : i < g.size) :
    g.setStarting i starting = .ok (g.withStarting i starting) := by
  rw [setStarting, requireState, if_pos hi]
  rfl

theorem connect_eq_ok {g : Graph} {i j : Nat} (a : Symbol) (hi : i < g.size) (hj : j < g.size) :
    g.connect i a j = .ok (g.withEdge i a j) := by
  rw [connect, if_neg (Nat.not_le_of_lt hj), requireState, if_pos hi]
  rfl

end Graph

end FiniteAutomata
