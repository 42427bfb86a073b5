import FiniteAutomata.Label

/-!
What can go wrong. A misuse is a request outside the domain of an operation, such as an edge to a
state that does not exist; the other errors are failures that operations on automata and tables
report about a well-formed input.
-/

namespace FiniteAutomata

inductive Misuse where
  | noState (index : Nat)
  | noTarget (index : Nat)
  | foreignEnds
  | noRow (index : Nat)
  | emptyAlphabet
  | emptyRange
deriving DecidableEq

/-- The wording of those requests that have one. -/
def Misuse.message? : Misuse → Option String
  | noTarget index => some s!"Target state {index} does not exist"
  | foreignEnds => some "The input and output state must be part of the graph"
  | emptyAlphabet => some "The alphabet must contain at least one symbol"
  | noState _ | noRow _ | emptyRange => none

/-- What can be wrong with the labels and tables of a nondeterministic automaton. -/
inductive AutomatonError where
  | missingLabel (state : Nat)
  | labelAlreadySet (state : Nat) (label : Label)
  | duplicateLabel (label : Label)
  | tableNotBuilt
  | unknownState (label : Label)
  | emptyFragmentList
deriving DecidableEq

def AutomatonError.message : AutomatonError → String
  | missingLabel state =>
    s!"State {state} has no label, labels must be assigned before closures or tables are computed"
  | labelAlreadySet state label => s!"State {state} already has label {label.text}"
  | duplicateLabel label => s!"Label {label.text} is used by more than one state"
  | tableNotBuilt => "The NFA transition table has not been built yet"
  | unknownState label => s!"Unknown state {label.text} in the NFA transition table"
  | emptyFragmentList => "At least one fragment is required"

/-- What can be wrong with a deterministic table or with the automaton it is made from. -/
inductive TableError where
  | automaton (e : AutomatonError)
  | unknownTarget (row : String) (symbol : Char) (target : String)
  | columnCount (row : String) (expected actual : Nat)
  | duplicateState (label : String)
  | missingStartState
deriving DecidableEq

def TableError.message : TableError → String
  | automaton e => e.message
  | unknownTarget row symbol target =>
    s!"State {row} has a transition on {symbol} to unknown state {target}"
  | columnCount row expected actual =>
    s!"State {row} has {actual} targets, but the alphabet has {expected} symbols"
  | duplicateState label => s!"State {label} occurs more than once in the table"
  | missingStartState => "The table has no starting state"

end FiniteAutomata
