import FiniteAutomata.Label
import FiniteAutomata.Json.Text
import FiniteAutomata.Nfa.Basic

/-!
Transition tables of nondeterministic automata. A table has a row for every reachable state, with
the labels reached on every character of the alphabet and a last column for the empty word. That
column holds either the targets of the epsilon edges or all that follows from them. Rows are looked
up in an index of their labels, which finds the first row of a label (`row?_eq_find?`).
-/

namespace FiniteAutomata

structure TransitionTable.Row where
  heading : Heading Label
  columns : List (Char × List Label)
  epsilon : List Label
deriving DecidableEq

structure TransitionTable where
  alphabet : List Char
  rows : List TransitionTable.Row
  index : Std.TreeMap Label Nat
  getElem?_index : ∀ label, index[label]? = rows.findIdx? (·.heading.label = label)

/-- What the column for the empty word holds. -/
inductive EpsilonColumn where
  | direct
  | closure
deriving DecidableEq

namespace TransitionTable

/-- The labels in the column of a character; none if there is no such column. -/
def Row.targets (r : Row) (c : Char) : List Label :=
  match r.columns.find? (·.1 = c) with
  | some (_, labels) => labels
  | none => []

/-- The row at the position that the index has for a label. -/
def row? (t : TransitionTable) (label : Label) : Option Row := do t.rows[← t.index[label]?]?

theorem row?_eq_find? (t : TransitionTable) (label : Label) :
    t.row? label = t.rows.find? (·.heading.label = label) := by
  rw [List.find?_eq_bind_findIdx?_getElem?, ← t.getElem?_index]
  rfl

def indexed (alphabet : List Char) (rows : List Row) : TransitionTable where
  alphabet := alphabet
  rows := rows
  index := firstPositions (rows.map (·.heading.label))
  getElem?_index label := by
    rw [getElem?_firstPositions, List.findIdx?_map]
    rfl

/-- A table of rows whose labels must be distinct. -/
def ofRows (alphabet : List Char) (rows : List Row) : Except AutomatonError TransitionTable :=
  match firstRepeat? (rows.map (·.heading.label)) with
  | some label => .error (.duplicateLabel label)
  | none => .ok (indexed alphabet rows)

end TransitionTable

namespace Nfa

/-- The row of one state, with a column for every character of an alphabet. -/
def row (a : Nfa) (kind : EpsilonColumn) (alphabet : List Char) (i : Nat) :
    Except AutomatonError TransitionTable.Row := do
  let label ← a.graph.label i
  let columns ← alphabet.mapM fun c =>
    return (c, ← (a.graph.targets i (.char c)).mapM a.graph.label)
  let epsilon ← match kind with
    | .direct => (a.graph.targets i .epsilon).mapM a.graph.label
    | .closure => a.graph.epsilonClosure i
  let s := a.graph.state i
  return ⟨⟨label, s.starting, s.accepting⟩, columns, epsilon⟩

/-- The table of an automaton whose reachable states are labelled. -/
def tabulate (a : Nfa) (kind : EpsilonColumn) : Except AutomatonError TransitionTable := do
  let alphabet := a.alphabet
  TransitionTable.ofRows alphabet (← a.states.mapM (a.row kind alphabet))

/-- Labels the states and tabulates the epsilon edges as they are. The labels stay when the table
cannot be made. -/
def transitionTable (a : Nfa) : Nfa × Except AutomatonError TransitionTable :=
  (a.labelled, a.labelled.tabulate .direct)

end Nfa

/-! ### Tables as text -/

/-- Numbers are written as numbers and names as strings. -/
def Label.json : Label → List Char
  | number n => n.repr.toList
  | name s => Json.string s

namespace TransitionTable

def Row.text (r : Row) : String := (r.heading.withLabel r.heading.label.text).text

/-- The columns under the symbols they are for. -/
def Row.entries (r : Row) : List (String × List Label) :=
  r.columns.map (fun (c, labels) => (c.toString, labels)) ++ [(Symbol.epsilonColumn, r.epsilon)]

def Row.display (r : Row) : String :=
  r.text ++ ":" ++ String.join (r.entries.map fun (symbol, labels) =>
    s!" {symbol} [" ++ ",".intercalate (labels.map Label.text) ++ "]") ++ "\n"

def display (t : TransitionTable) : String := String.join (t.rows.map Row.display)

def Row.json (r : Row) : List Char :=
  Json.object <| r.entries.map fun (symbol, labels) => (symbol, Json.array (labels.map Label.json))

def json (t : TransitionTable) : String :=
  String.ofList <| Json.object <| t.rows.map fun r => (r.text, r.json)

end TransitionTable

end FiniteAutomata
