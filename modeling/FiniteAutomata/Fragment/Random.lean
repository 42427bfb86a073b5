import FiniteAutomata.Fragment.Basic
import FiniteAutomata.RandomSource

/-!
Random fragments. Drawing and building take turns: every combinator is drawn before its operands, and
the operands are drawn and built from left to right before it is applied to them.
-/

namespace FiniteAutomata

/-- A construction that draws from a random source as it goes along. -/
abbrev RandomBuild := StateT RandomSource Build

/-- Drawing leaves the graph alone. -/
instance : MonadLift Draw RandomBuild where
  monadLift d := fun s => StateT.lift (d.run s)

namespace Fragment

def drawChar (alphabet : List Char) : RandomBuild Fragment := do
  Fragment.char (← Draw.symbol alphabet)

/-- A fragment of at most `depth` nested combinators, drawn with equal chances at every level. -/
def draw (alphabet : List Char) : (depth : Nat) → RandomBuild Fragment
  | 0 => drawChar alphabet
  | depth + 1 => do
    match (← Draw.below 7).val with
    | 0 => drawChar alphabet
    | 1 =>
      let x ← draw alphabet depth
      let y ← draw alphabet depth
      x.concat y
    | 2 =>
      let x ← draw alphabet depth
      let y ← draw alphabet depth
      x.union y
    | 3 => (← draw alphabet depth).optional
    | 4 => (← draw alphabet depth).plus
    | 5 => (← draw alphabet depth).star
    | _ => (← draw alphabet depth).starFresh

/-- A random fragment over an alphabet, which must not be empty. -/
def random (alphabet : List Char) (depth : Nat) : RandomBuild Fragment :=
  if alphabet.isEmpty then throw .emptyAlphabet else draw alphabet depth

end Fragment

end FiniteAutomata
