import FiniteAutomata.Nfa.TransitionTable

/-!
Automata with their closure table, which is made on request and then kept. Labels and rows can be
asked for at any time; rows need the table.
-/

namespace FiniteAutomata

structure Tabulated where
  nfa : Nfa
  made : Option TransitionTable := none

namespace Tabulated

/-- The table, made now if it was not made before. The labels given out on the way stay when the
table cannot be made. -/
def make (t : Tabulated) : Tabulated × Except AutomatonError TransitionTable :=
  match t.made with
  | some table => (t, .ok table)
  | none =>
    match t.nfa.labelled.tabulate .closure with
    | .ok table => (⟨t.nfa.labelled, some table⟩, .ok table)
    | .error e => (⟨t.nfa.labelled, none⟩, .error e)

theorem make_of_made {t : Tabulated} {table : TransitionTable} (known : t.made = some table) :
    t.make = (t, .ok table) := by
  rw [make, known]

theorem make_of_ok {t : Tabulated} {table : TransitionTable} (unknown : t.made = none)
    (tabulated : t.nfa.labelled.tabulate .closure = .ok table) :
    t.make = (⟨t.nfa.labelled, some table⟩, .ok table) := by
  rw [make, unknown, tabulated]

theorem make_of_error {t : Tabulated} {e : AutomatonError} (unknown : t.made = none)
    (failed : t.nfa.labelled.tabulate .closure = .error e) :
    t.make = (⟨t.nfa.labelled, none⟩, .error e) := by
  rw [make, unknown, failed]

def table (t : Tabulated) : Except AutomatonError TransitionTable :=
  match t.made with
  | some table => .ok table
  | none => .error .tableNotBuilt

def startLabel (t : Tabulated) : Except AutomatonError Label := t.nfa.graph.label t.nfa.input

def acceptLabel (t : Tabulated) : Except AutomatonError Label := t.nfa.graph.label t.nfa.output

def row (t : Tabulated) (label : Label) : Except AutomatonError TransitionTable.Row := do
  match (← t.table).row? label with
  | some r => return r
  | none => throw (.unknownState label)

theorem row_of_row? {t : Tabulated} {table : TransitionTable} {l : Label}
    {r : TransitionTable.Row} (known : t.made = some table) (found : table.row? l = some r) :
    t.row l = .ok r := by
  simp [row, Tabulated.table, known, found, bind, Except.bind, pure, Except.pure]

theorem row_of_row?_eq_none {t : Tabulated} {table : TransitionTable} {l : Label}
    (known : t.made = some table) (absent : table.row? l = none) :
    t.row l = .error (.unknownState l) := by
  simp [row, Tabulated.table, known, absent, bind, Except.bind, throw, throwThe, MonadExceptOf.throw]

def closure (t : Tabulated) (label : Label) : Except AutomatonError (List Label) := do
  return (← t.row label).epsilon

def startClosure (t : Tabulated) : Except AutomatonError (List Label) := do
  let _ ← t.table
  t.closure (← t.startLabel)

end Tabulated

end FiniteAutomata
