import FiniteAutomata.Fragment.Basic
import FiniteAutomata.Graph.Lemmas

/-!
What the combinators do to a graph. On fragments whose ends are states of the graph no combinator
is refused, and the graph that results is the old one with the changes in order.
-/

namespace FiniteAutomata

namespace Build

variable {α : Type}

theorem run_addState_bind (g : Graph) (accepting : Bool) (label : Option Label)
    (rest : Nat → Build α) :
    (addState accepting label >>= rest).run g = (rest g.size).run (g.add accepting label) :=
  rfl

theorem run_setAccepting_bind {g : Graph} {i : Nat} (hi : i < g.size) (accepting : Bool)
    (rest : Unit → Build α) :
    (setAccepting i accepting >>= rest).run g = (rest ()).run (g.withAccepting i accepting) := by
  change ((g.setAccepting i accepting).map ((), ·)).bind _ = _
  rw [Graph.setAccepting_eq_ok accepting hi]
  rfl

theorem run_connect_bind {g : Graph} {i j : Nat} (hi : i < g.size) (hj : j < g.size) (a : Symbol)
    (rest : Unit → Build α) :
    (connect i a j >>= rest).run g = (rest ()).run (g.withEdge i a j) := by
  change ((g.connect i a j).map ((), ·)).bind _ = _
  rw [Graph.connect_eq_ok a hi hj]
  rfl

end Build

/-- Both ends of the fragment are states of the graph. -/
structure Fragment.In (x : Fragment) (g : Graph) : Prop where
  input_lt : x.input < g.size
  output_lt : x.output < g.size

namespace Fragment

open Build

theorem run_char (c : Char) (g : Graph) : (Fragment.char c).run g =
    .ok (⟨g.size, g.size + 1⟩,
      ((g.add false).add true).withEdge g.size (.char c) (g.size + 1)) := by
  rw [Fragment.char, run_addState_bind, run_addState_bind, Graph.size_add, run_connect_bind]
  · rfl
  all_goals
    rw [Graph.size_add, Graph.size_add]
    omega

theorem run_concat {g : Graph} {x y : Fragment} (hx : x.In g) (hy : y.In g) :
    (x.concat y).run g =
      .ok (⟨x.input, y.output⟩, ((g.withAccepting x.output false).withAccepting y.output
        true).withEdge x.output .epsilon y.input) := by
  have := hx.output_lt
  have := hy.input_lt
  have := hy.output_lt
  rw [concat, run_setAccepting_bind, run_setAccepting_bind, run_connect_bind]
  · rfl
  all_goals simpa only [Graph.size_withAccepting]

theorem run_union {g : Graph} {x y : Fragment} (hx : x.In g) (hy : y.In g) :
    (x.union y).run g =
      .ok (⟨g.size, g.size + 1⟩, ((((((g.withAccepting x.output false).withAccepting y.output
        false).add false).withEdge g.size .epsilon x.input).withEdge g.size .epsilon y.input).add
        true).withEdge x.output .epsilon (g.size + 1)
          |>.withEdge y.output .epsilon (g.size + 1)) := by
  obtain ⟨hxi, hxo⟩ := hx
  obtain ⟨hyi, hyo⟩ := hy
  rw [union, run_setAccepting_bind hxo, run_setAccepting_bind (by simpa), run_addState_bind,
    run_connect_bind, run_connect_bind, run_addState_bind, run_connect_bind, run_connect_bind]
  · simp only [Graph.size_add, Graph.size_withAccepting, Graph.size_withEdge]
    rfl
  all_goals
    simp only [Graph.size_add, Graph.size_withAccepting, Graph.size_withEdge]
    omega

theorem run_optional {g : Graph} {x : Fragment} (hx : x.In g) :
    x.optional.run g = .ok (x, g.withEdge x.input .epsilon x.output) := by
  rw [optional, run_connect_bind hx.input_lt hx.output_lt]
  rfl

theorem run_plus {g : Graph} {x : Fragment} (hx : x.In g) :
    x.plus.run g = .ok (x, g.withEdge x.output .epsilon x.input) := by
  rw [plus, run_connect_bind hx.output_lt hx.input_lt]
  rfl

theorem run_star {g : Graph} {x : Fragment} (hx : x.In g) :
    x.star.run g = .ok (x, (g.withEdge x.output .epsilon x.input).withEdge x.input .epsilon
      x.output) := by
  rw [star, run_connect_bind hx.output_lt hx.input_lt, run_connect_bind]
  · rfl
  · simpa using hx.input_lt
  · simpa using hx.output_lt

theorem run_starFresh {g : Graph} {x : Fragment} (hx : x.In g) :
    x.starFresh.run g =
      .ok (⟨g.size, g.size + 1⟩, ((((((g.withAccepting x.output false).add false).add
        true).withEdge g.size .epsilon x.input).withEdge x.output .epsilon (g.size + 1)).withEdge
        g.size .epsilon (g.size + 1)).withEdge (g.size + 1) .epsilon x.input) := by
  obtain ⟨hi, ho⟩ := hx
  rw [starFresh, run_setAccepting_bind ho, run_addState_bind, run_addState_bind, run_connect_bind,
    run_connect_bind, run_connect_bind, run_connect_bind]
  · simp only [Graph.size_add, Graph.size_withAccepting]
    rfl
  all_goals
    simp only [Graph.size_add, Graph.size_withAccepting, Graph.size_withEdge]
    omega

end Fragment

end FiniteAutomata
