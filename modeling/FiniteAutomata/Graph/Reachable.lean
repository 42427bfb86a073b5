import FiniteAutomata.Errors
import FiniteAutomata.Graph.Basic
import FiniteAutomata.Search.Preorder

/-!
States that can be reached in a graph, by any edges or by epsilon edges alone, and the labels of
the latter. Both are met in depth-first preorder (`reachable_eq`, `epsilonClosure_eq`).
-/

namespace FiniteAutomata.Graph

/-- The states reachable from `i`, each once, in depth-first preorder. -/
def reachable (g : Graph) (i : Nat) : List Nat :=
  (Search.visitFresh g.successors (.below g.size) [i] #[]).toList

theorem reachable_eq (g : Graph) (i : Nat) :
    g.reachable i = Search.preorder g.successors (.below g.size) [i] := by
  rw [reachable, Search.toList_visitFresh]
  rfl

theorem nodup_reachable (g : Graph) (i : Nat) : (g.reachable i).Nodup := by
  rw [reachable_eq]
  exact Search.nodup_preorder ..

/-- The states reachable from `starts` without reading a character, in depth-first preorder. -/
def silentlyReachable (g : Graph) (starts : List Nat) : List Nat :=
  Search.preorder (g.targets · .epsilon) (.below g.size) starts

/-- The label of a state, which must have been set. -/
def label (g : Graph) (i : Nat) : Except AutomatonError Label :=
  match (g.state i).label with
  | some label => .ok label
  | none => .error (.missingLabel i)

theorem label_eq_ok {g : Graph} {i : Nat} {label : Label} (known : (g.state i).label = some label) :
    g.label i = .ok label := by
  rw [Graph.label, known]

theorem label_eq_error {g : Graph} {i : Nat} (unknown : (g.state i).label = none) :
    g.label i = .error (.missingLabel i) := by
  rw [label, unknown]

/-- Labels a state that has no label yet. -/
def setLabel (g : Graph) (i : Nat) (label : Label) : Except AutomatonError Graph :=
  match (g.state i).label with
  | some old => .error (.labelAlreadySet i old)
  | none => .ok (g.withLabel i label)

/-- The labels of the states reachable from `i` without reading a character, in depth-first
preorder. All of these states must have labels. -/
def epsilonClosure (g : Graph) (i : Nat) : Except AutomatonError (List Label) :=
  (Search.collect (g.targets · .epsilon) g.label (.below g.size) [i] #[]).map Array.toList

theorem epsilonClosure_eq (g : Graph) (i : Nat) :
    g.epsilonClosure i = (g.silentlyReachable [i]).mapM g.label := by
  rw [epsilonClosure, Search.collect_eq, silentlyReachable]
  cases (Search.preorder (g.targets · .epsilon) (.below g.size) [i]).mapM g.label <;> rfl

/-! ### Acceptance -/

/-- The states after one more character. -/
def read (g : Graph) (current : List Nat) (c : Char) : List Nat :=
  g.silentlyReachable (current.flatMap (g.targets · (.char c)))

/-- The states that reading a word from `i` can end in. -/
def after (g : Graph) (i : Nat) (word : List Char) : List Nat :=
  word.foldl g.read (g.silentlyReachable [i])

def accepts (g : Graph) (i : Nat) (word : List Char) : Bool :=
  (g.after i word).any fun j => (g.state j).accepting

end FiniteAutomata.Graph
