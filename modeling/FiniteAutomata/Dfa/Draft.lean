import FiniteAutomata.Dfa.Basic

/-!
Tables that rows are added to. A draft keeps its rows beside an index of their labels, which finds
the position of a row without a search and knows whether a label is taken.
-/

namespace FiniteAutomata.Dfa

structure Draft where
  alphabet : List Char
  rows : Array Row
  index : Std.TreeMap String Nat

/-- A draft that more rows can be added to. -/
def draft (d : Dfa) : Draft :=
  ⟨d.alphabet, d.rows.toArray, firstPositions (d.rows.map (·.heading.label))⟩

namespace Draft

def empty (alphabet : List Char) : Draft := ⟨alphabet, #[], ∅⟩

def index? (t : Draft) (label : String) : Option Nat := t.index[label]?

/-- Adds a row, and answers with its position. The number of its columns is checked before its
label. -/
def addRow (t : Draft) (r : Row) : Draft × Except TableError Nat :=
  if r.targets.length ≠ t.alphabet.length then
    (t, .error (.columnCount r.heading.label t.alphabet.length r.targets.length))
  else if r.heading.label ∈ t.index then
    (t, .error (.duplicateState r.heading.label))
  else
    let i := t.rows.size
    (⟨t.alphabet, t.rows.push r, t.index.insert r.heading.label i⟩, .ok i)

/-- Adds rows one after the other, also behind rows that were refused. -/
def addRows (t : Draft) : List Row → Draft × List (Except TableError Nat)
  | [] => (t, [])
  | r :: rs =>
    let (t, answer) := t.addRow r
    let (t, answers) := t.addRows rs
    (t, answer :: answers)

def toDfa (t : Draft) : Except TableError Dfa := ofRows t.alphabet t.rows.toList

end Draft

end FiniteAutomata.Dfa
