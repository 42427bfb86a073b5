import FiniteAutomata.Dfa.Basic
import FiniteAutomata.Nfa.Tabulated
import FiniteAutomata.Search.BreadthFirst
import FiniteAutomata.SortedSet

/-!
The powerset automaton. Its rows are the sets of states that words lead to, found breadth-first
from the states reachable without reading. A row is named by the labels of its states in order. Sets
of different labels can have the same name; there is no automaton then, and no need to find the rows
behind the first one whose name is taken (`powerset_eq_ofRows`). States are numbers here; looking up
sets of labels in the closure table and adding their rows round by round ends in the same table or
error (`Tabulated.constructs_iff`).
-/

namespace FiniteAutomata

/-- A set of states, given by their numbers. -/
abbrev StateSet := SortedSet Nat

/-- A set of states, given by their labels. -/
abbrev LabelSet := SortedSet Label

namespace LabelSet

def text (s : LabelSet) : String := SortedSet.text Label.text s

end LabelSet

namespace Graph

/-- The set that a character leads to, if it leads anywhere. -/
def move (g : Graph) (s : StateSet) (c : Char) : Option StateSet :=
  match g.read s.elements c with
  | [] => none
  | reached => some (.ofList reached)

def labelSet (g : Graph) (s : StateSet) : LabelSet :=
  .ofList (s.elements.filterMap fun i => (g.state i).label)

def setText (g : Graph) (s : StateSet) : String := (g.labelSet s).text

/-- The row of a set of states and of the sets that it leads to. It accepts if a state of the set
has the label `accept`. -/
def setRow (g : Graph) (accept : Label) (s : StateSet) (reached : List (Option StateSet)) :
    Dfa.Row where
  heading := ⟨g.setText s, false, s.elements.any fun i => (g.state i).label = some accept⟩
  targets := reached.map (Option.map g.setText)

end Graph

namespace Dfa

/-- Makes the first row the starting one. -/
def startFirst : List Row → List Row
  | [] => []
  | r :: rows => { r with heading.starts := true } :: rows

theorem upToRepeatAfter_startFirst (seen : Std.TreeSet String) (rows : List Row) :
    upToRepeatAfter (·.heading.label) seen (startFirst rows) =
      startFirst (upToRepeatAfter (·.heading.label) seen rows) := by
  cases rows with
  | nil => rfl
  | cons r rows =>
    rw [upToRepeatAfter, apply_ite startFirst]
    rfl

end Dfa

namespace Nfa

/-- The states reachable from the input without reading. -/
def startSet (a : Nfa) : StateSet := .ofList (a.graph.silentlyReachable [a.input])

/-- The sets that the characters of an alphabet lead to. -/
def moves (a : Nfa) (alphabet : List Char) (s : StateSet) : List (Option StateSet) :=
  alphabet.map (a.graph.move s)

/-- The sets that words lead to, each with the sets that the characters of an alphabet lead to.
There are at most as many as sets of states. -/
def reachableSets (a : Nfa) (alphabet : List Char) : List (StateSet × List (Option StateSet)) :=
  Search.breadthFirst (a.moves alphabet) (Nat.pow 2 a.graph.size) a.startSet

/-- The rows of the sets that words lead to. The first starts. -/
def setRows (a : Nfa) (alphabet : List Char) (accept : Label) : List Dfa.Row :=
  Dfa.startFirst <| (a.reachableSets alphabet).map fun (s, reached) =>
    a.graph.setRow accept s reached

/-- The powerset automaton over an alphabet, unless two of its rows have the same label. The search
for rows ends with the first one whose label is that of a row before it. -/
def powerset (a : Nfa) (alphabet : List Char) (accept : Label) : Except TableError Dfa :=
  Dfa.ofRows alphabet <| Dfa.startFirst <|
    Search.itemsUpToRepeat (a.moves alphabet) (a.graph.setRow accept) (·.heading.label)
      (Nat.pow 2 a.graph.size) a.startSet

theorem powerset_eq_ofRows (a : Nfa) (alphabet : List Char) (accept : Label) :
    a.powerset alphabet accept = Dfa.ofRows alphabet (a.setRows alphabet accept) := by
  rw [powerset, Search.itemsUpToRepeat_eq, upToRepeat, ← Dfa.upToRepeatAfter_startFirst]
  exact Dfa.ofRows_upToRepeat ..

end Nfa

namespace Tabulated

/-- The powerset automaton of a tabulated automaton, whose table is made if it was not. A set is
accepting if the label of the output state is one of its labels. -/
def powerset (t : Tabulated) : Tabulated × Except TableError Dfa :=
  let (t, made) := t.make
  let ends := do return (← made, ← t.acceptLabel)
  match ends with
  | .ok (table, accept) => (t, t.nfa.powerset table.alphabet accept)
  | .error e => (t, .error (.automaton e))

end Tabulated

end FiniteAutomata
