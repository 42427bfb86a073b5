import FiniteAutomata.Errors
import FiniteAutomata.Graph.Basic

/-!
Fragments of an automaton under construction. A fragment is entered at its input state and left at
its output state; the combinators wire fragments of one graph together by epsilon edges and keep
the output of the result as its accepting state.
-/

namespace FiniteAutomata

structure Fragment where
  input : Nat
  output : Nat
deriving DecidableEq

/-- A construction on a graph that is changed as it goes along. -/
abbrev Build := StateT Graph (Except Misuse)

namespace Build

/-- Adds a state and returns its number. -/
def addState (accepting : Bool) (label : Option Label := none) : Build Nat :=
  modifyGet fun g => (g.size, g.add accepting label)

/-- Changes the graph, unless the change is refused. -/
def change (f : Graph → Except Misuse Graph) : Build Unit := fun g => (f g).map ((), ·)

def setAccepting (i : Nat) (accepting : Bool) : Build Unit := change (·.setAccepting i accepting)

def connect (i : Nat) (a : Symbol) (j : Nat) : Build Unit := change (·.connect i a j)

end Build

namespace Fragment

open Build

/-- Accepts the word that consists of one character. -/
def char (c : Char) : Build Fragment := do
  let input ← addState false
  let output ← addState true
  connect input (.char c) output
  return ⟨input, output⟩

/-- Accepts a word of `x` followed by a word of `y`. -/
def concat (x y : Fragment) : Build Fragment := do
  setAccepting x.output false
  setAccepting y.output true
  connect x.output .epsilon y.input
  return ⟨x.input, y.output⟩

/-- Accepts the words of `x` and those of `y`, between a new input and a new output. -/
def union (x y : Fragment) : Build Fragment := do
  setAccepting x.output false
  setAccepting y.output false
  let input ← addState false
  connect input .epsilon x.input
  connect input .epsilon y.input
  let output ← addState true
  connect x.output .epsilon output
  connect y.output .epsilon output
  return ⟨input, output⟩

/-- Also accepts the empty word. -/
def optional (x : Fragment) : Build Fragment := do
  connect x.input .epsilon x.output
  return x

/-- Accepts one or more words of `x` in a row. -/
def plus (x : Fragment) : Build Fragment := do
  connect x.output .epsilon x.input
  return x

/-- Accepts any number of words of `x` in a row, on the states of `x`. -/
def star (x : Fragment) : Build Fragment := do
  connect x.output .epsilon x.input
  connect x.input .epsilon x.output
  return x

/-- Accepts any number of words of `x` in a row, between a new input and a new output. -/
def starFresh (x : Fragment) : Build Fragment := do
  setAccepting x.output false
  let input ← addState false
  let output ← addState true
  connect input .epsilon x.input
  connect x.output .epsilon output
  connect input .epsilon output
  connect output .epsilon x.input
  return ⟨input, output⟩

/-- Concatenates a list of fragments, which must not be empty, from left to right. -/
def concatAll : List Fragment → Except AutomatonError (Build Fragment)
  | [] => .error .emptyFragmentList
  | x :: xs => .ok (xs.foldlM concat x)

/-- Unites a list of fragments, which must not be empty, from left to right. -/
def unionAll : List Fragment → Except AutomatonError (Build Fragment)
  | [] => .error .emptyFragmentList
  | x :: xs => .ok (xs.foldlM union x)

end Fragment

end FiniteAutomata
