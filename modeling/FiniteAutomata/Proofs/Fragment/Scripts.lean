import FiniteAutomata.Proofs.Fragment.Assembly
import FiniteAutomata.Proofs.Graph.History

/-!
Combinators as scripts of changes. A combinator makes the same changes in the same order on every
graph of one size, whatever its operands are, and is refused where one of the changes is.
-/

namespace FiniteAutomata

namespace Build

variable {α β : Type} {g : Graph} {n : Nat} {changes rest : List Change} {y : β} {z : α}

/-- The construction makes the changes and returns `z`, unless one of them is refused. -/
def Does (b : Build α) (g : Graph) (changes : List Change) (z : α) : Prop :=
  b.run g = (g.perform changes).map (z, ·)

theorem does_pure (z : α) (g : Graph) : Does (pure z) g [] z := rfl

theorem does_change {f : Graph → Except Misuse Graph} {c : Change} (same : g.apply c = f g) :
    Does (change f) g [c] () := by
  rw [Does, Graph.perform_cons, same]
  show (f g).map _ = _
  cases f g <;> rfl

theorem does_addState (size : g.size = n) (accepting : Bool) :
    Does (addState accepting) g [.add accepting none] n :=
  size ▸ rfl

theorem does_setAccepting (g : Graph) (i : Nat) (accepting : Bool) :
    Does (setAccepting i accepting) g [.setAccepting i accepting] () :=
  does_change rfl

theorem does_connect (g : Graph) (i : Nat) (a : Symbol) (j : Nat) :
    Does (connect i a j) g [.connect i a j] () :=
  does_change rfl

theorem Does.bind {b : Build β} {f : β → Build α} (first : Does b g changes y)
    (size : g.size = n) (second : ∀ g', g'.size = n + added changes → Does (f y) g' rest z) :
    Does (b >>= f) g (changes ++ rest) z := by
  rw [Does, StateT.run_bind, first, Graph.perform_append]
  cases performed : g.perform changes with
  | error e => rfl
  | ok g' => exact second g' (size ▸ Graph.size_of_perform performed)

end Build

/-! ### The script of a call -/

/-- The changes that a call makes, and the fragment that it returns. -/
structure Script where
  changes : List Change
  result : Fragment

namespace Script

/-! The scripts are those for a graph of `n` states, whose next two states are `n` and `n + 1`. -/

variable (n : Nat)

def char (c : Char) : Script :=
  ⟨[.add false none, .add true none, .connect n (.char c) (n + 1)], ⟨n, n + 1⟩⟩

def concat (x y : Fragment) : Script :=
  ⟨[.setAccepting x.output false, .setAccepting y.output true,
    .connect x.output .epsilon y.input], ⟨x.input, y.output⟩⟩

def union (x y : Fragment) : Script :=
  ⟨[.setAccepting x.output false, .setAccepting y.output false, .add false none,
    .connect n .epsilon x.input, .connect n .epsilon y.input, .add true none,
    .connect x.output .epsilon (n + 1), .connect y.output .epsilon (n + 1)], ⟨n, n + 1⟩⟩

def optional (x : Fragment) : Script := ⟨[.connect x.input .epsilon x.output], x⟩

def plus (x : Fragment) : Script := ⟨[.connect x.output .epsilon x.input], x⟩

def star (x : Fragment) : Script :=
  ⟨[.connect x.output .epsilon x.input, .connect x.input .epsilon x.output], x⟩

def starFresh (x : Fragment) : Script :=
  ⟨[.setAccepting x.output false, .add false none, .add true none, .connect n .epsilon x.input,
    .connect x.output .epsilon (n + 1), .connect n .epsilon (n + 1),
    .connect (n + 1) .epsilon x.input], ⟨n, n + 1⟩⟩

/-- One script behind the other along a list of operands. -/
def fold (step : Nat → Fragment → Fragment → Script) : Nat → Fragment → List Fragment → Script
  | _, x, [] => ⟨[], x⟩
  | n, x, y :: ys =>
    let first := step n x y
    let rest := fold step (n + added first.changes) first.result ys
    ⟨first.changes ++ rest.changes, rest.result⟩

end Script

/-- The construction follows the script on the graph. -/
def Build.Follows (b : Build Fragment) (g : Graph) (script : Script) : Prop :=
  b.Does g script.changes script.result

namespace Fragment

open Build

variable {g : Graph} {n : Nat} (size : g.size = n)
include size

theorem follows_char (c : Char) : (Fragment.char c).Follows g (.char n c) := by
  refine (does_addState size false).bind size fun _ size => ?_
  refine (does_addState size true).bind size fun _ size => ?_
  refine (does_connect _ n (.char c) (n + 1)).bind size fun _ _ => ?_
  exact does_pure ..

theorem follows_concat (x y : Fragment) : (x.concat y).Follows g (.concat x y) := by
  refine (does_setAccepting g x.output false).bind size fun _ size => ?_
  refine (does_setAccepting _ y.output true).bind size fun _ size => ?_
  refine (does_connect _ x.output .epsilon y.input).bind size fun _ _ => ?_
  exact does_pure ..

-- One step for each line of the combinator. The second state is added behind edges of the first, so
-- the size of the graph is carried through them.
theorem follows_union (x y : Fragment) : (x.union y).Follows g (.union n x y) := by
  refine (does_setAccepting g x.output false).bind size fun _ size => ?_
  refine (does_setAccepting _ y.output false).bind size fun _ size => ?_
  refine (does_addState size false).bind size fun _ size => ?_
  refine (does_connect _ n .epsilon x.input).bind size fun _ size => ?_
  refine (does_connect _ n .epsilon y.input).bind size fun _ size => ?_
  refine (does_addState size true).bind size fun _ size => ?_
  refine (does_connect _ x.output .epsilon (n + 1)).bind size fun _ size => ?_
  refine (does_connect _ y.output .epsilon (n + 1)).bind size fun _ _ => ?_
  exact does_pure ..

theorem follows_optional (x : Fragment) : x.optional.Follows g (.optional x) :=
  (does_connect ..).bind size fun _ _ => does_pure ..

theorem follows_plus (x : Fragment) : x.plus.Follows g (.plus x) :=
  (does_connect ..).bind size fun _ _ => does_pure ..

theorem follows_star (x : Fragment) : x.star.Follows g (.star x) := by
  refine (does_connect g x.output .epsilon x.input).bind size fun _ size => ?_
  refine (does_connect _ x.input .epsilon x.output).bind size fun _ _ => ?_
  exact does_pure ..

theorem follows_starFresh (x : Fragment) : x.starFresh.Follows g (.starFresh n x) := by
  refine (does_setAccepting g x.output false).bind size fun _ size => ?_
  refine (does_addState size false).bind size fun _ size => ?_
  refine (does_addState size true).bind size fun _ size => ?_
  refine (does_connect _ n .epsilon x.input).bind size fun _ size => ?_
  refine (does_connect _ x.output .epsilon (n + 1)).bind size fun _ size => ?_
  refine (does_connect _ n .epsilon (n + 1)).bind size fun _ size => ?_
  refine (does_connect _ (n + 1) .epsilon x.input).bind size fun _ _ => ?_
  exact does_pure ..

theorem follows_foldlM {f : Fragment → Fragment → Build Fragment}
    {step : Nat → Fragment → Fragment → Script}
    (each : ∀ {g n}, g.size = n → ∀ x y, (f x y).Follows g (step n x y)) (x : Fragment)
    (ys : List Fragment) : (ys.foldlM f x).Follows g (.fold step n x ys) := by
  induction ys generalizing g n x with
  | nil => exact does_pure x g
  | cons y ys ih =>
    rw [List.foldlM_cons]
    exact (each size x y).bind size fun _ size => ih size _

end Fragment

namespace Combination

def script (n : Nat) : Combination Fragment → Script
  | char c => .char n c
  | concat x y => .concat x y
  | union x y => .union n x y
  | optional x => .optional x
  | plus x => .plus x
  | star x => .star x
  | starFresh x => .starFresh n x
  | concatAll x xs => .fold (fun _ => .concat) n x xs
  | unionAll x xs => .fold .union n x xs

theorem follows_script {c : Combination Fragment} {b : Build Fragment} (built : c.build = .ok b)
    (g : Graph) : b.Follows g (c.script g.size) := by
  cases c <;> cases built
  case char a => exact Fragment.follows_char rfl a
  case concat x y => exact Fragment.follows_concat rfl x y
  case union x y => exact Fragment.follows_union rfl x y
  case optional x => exact Fragment.follows_optional rfl x
  case plus x => exact Fragment.follows_plus rfl x
  case star x => exact Fragment.follows_star rfl x
  case starFresh x => exact Fragment.follows_starFresh rfl x
  case concatAll x xs => exact Fragment.follows_foldlM rfl Fragment.follows_concat x xs
  case unionAll x xs => exact Fragment.follows_foldlM rfl Fragment.follows_union x xs

end Combination

end FiniteAutomata
