import FiniteAutomata.Dfa.Minimize
import FiniteAutomata.Dfa.Powerset

/-!
The deterministic tables of an automaton on request. The powerset table and its renamed version
are kept once they are made.
-/

namespace FiniteAutomata

structure Determinizer where
  source : Tabulated
  powersetMade : Option Dfa := none
  renamedMade : Option Dfa := none

namespace Determinizer

/-- The powerset table, whose rows are labelled by sets of states. -/
def powerset (b : Determinizer) : Determinizer × Except TableError Dfa :=
  match b.powersetMade with
  | some d => (b, .ok d)
  | none =>
    match b.source.powerset with
    | (source, .ok d) => ({ b with source, powersetMade := some d }, .ok d)
    | (source, .error e) => ({ b with source }, .error e)

/-- The powerset table with its rows renamed by position. -/
def renamed (b : Determinizer) : Determinizer × Except TableError Dfa :=
  match b.renamedMade with
  | some d => (b, .ok d)
  | none =>
    let (b, powerset) := b.powerset
    match powerset.bind Dfa.relabel with
    | .ok d => ({ b with renamedMade := some d }, .ok d)
    | .error e => (b, .error e)

/-- The renamed table with equivalent rows merged. -/
def minimal (b : Determinizer) : Determinizer × Except TableError Dfa :=
  let (b, renamed) := b.renamed
  (b, renamed.bind Dfa.minimize)

end Determinizer

end FiniteAutomata
