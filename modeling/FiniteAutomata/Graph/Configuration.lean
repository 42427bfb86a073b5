import FiniteAutomata.Graph.Basic
import FiniteAutomata.Occurrence
import Std.Data.HashSet

/-!
Acceptance by searching configurations. A configuration is a state with the part of the word that
has been read; the search goes on with the edges on the next character before the epsilon edges,
meets every configuration at most once, and stops at the first one that accepts. `search` looks up
every state that it meets and reports a number that is no state.
-/

namespace FiniteAutomata

/-- A state and how many characters of a word of the given length have been read. -/
structure Configuration (length : Nat) where
  state : Nat
  position : Fin (length + 1)
deriving DecidableEq, Hashable

namespace Graph

variable {length : Nat}

/-- The configurations that follow from one: first those after the next character, then those at
the same position. -/
def following (g : Graph) (word : Vector Char length) (c : Configuration length) :
    List (Configuration length) :=
  let silent := (g.targets c.state .epsilon).map (⟨·, c.position⟩)
  if h : c.position.val < length then
    (g.targets c.state (.char word[c.position.val])).map (⟨·, ⟨c.position + 1, by omega⟩⟩) ++ silent
  else silent

def isFinal (g : Graph) (c : Configuration length) : Bool :=
  c.position.val = length && (g.state c.state).accepting

/-! ### Configurations still to be met -/

/-- The configurations on the states of a graph. -/
def configurations (g : Graph) (length : Nat) : List (Configuration length) :=
  (List.range g.size).flatMap fun i => (List.finRange (length + 1)).map (⟨i, ·⟩)

theorem mem_configurations {g : Graph} {c : Configuration length} :
    c ∈ g.configurations length ↔ c.state < g.size := by
  simp only [configurations, List.mem_flatMap, List.mem_range, List.mem_map]
  constructor
  · rintro ⟨i, lt, p, -, rfl⟩
    exact lt
  · intro lt
    exact ⟨c.state, lt, c.position, List.mem_finRange _, rfl⟩

/-- How many configurations on states of the graph have not been met. -/
def unmet (g : Graph) (met : Std.HashSet (Configuration length)) : Nat :=
  (g.configurations length).countP (· ∉ met)

theorem unmet_insert_lt {g : Graph} {met : Std.HashSet (Configuration length)}
    {c : Configuration length} (inside : c.state < g.size) (fresh : c ∉ met) :
    g.unmet (met.insert c) < g.unmet met := by
  apply countP_lt_countP _ (mem_configurations.mpr inside) (by simp) (by simpa)
  intro d absent
  simp only [Std.HashSet.mem_insert, decide_eq_true_eq, not_or] at absent ⊢
  exact absent.2

/-! ### The search -/

/-- Looks for a final configuration among those on a stack and all that follow from them, where
those in `met` are left out. -/
def explore (g : Graph) (word : Vector Char length) (met : Std.HashSet (Configuration length))
    (stack : List (Configuration length)) : Except Misuse Bool :=
  match stack with
  | [] => .ok false
  | c :: stack =>
    if c ∈ met then explore g word met stack
    else if c.state < g.size then
      if g.isFinal c then .ok true
      else explore g word (met.insert c) (g.following word c ++ stack)
    else .error (.noState c.state)
termination_by (g.unmet met, stack.length)
decreasing_by
  · exact Prod.Lex.right _ (Nat.lt_succ_self _)
  · next fresh inside _ => exact Prod.Lex.left _ _ (unmet_insert_lt inside fresh)

/-- Whether a word leads from a state to an accepting state. The state must exist. -/
def search (g : Graph) (i : Nat) (word : List Char) : Except Misuse Bool :=
  g.explore ⟨word.toArray, rfl⟩ ∅ [⟨i, 0⟩]

end Graph

end FiniteAutomata
