import FiniteAutomata.Proofs.Dfa.Moves

/-!
Tables that differ in nothing but the names of their rows: rows at the same position have the same
marks and move to the same positions. Such tables accept the same words.
-/

namespace FiniteAutomata.Dfa

variable {d e : Dfa}

/-- What is left of a row without names: its marks and its moves. -/
def outline (d : Dfa) (r : Row) : Heading Unit × List (Option Nat) :=
  (r.heading.withLabel (), d.moves r)

structure SameShape (d e : Dfa) : Prop where
  alphabet : e.alphabet = d.alphabet
  rows : e.rows.map e.outline = d.rows.map d.outline

namespace SameShape

variable (shape : SameShape d e)
include shape

theorem map_outline (i : Nat) : (e.rows[i]?).map e.outline = (d.rows[i]?).map d.outline := by
  rw [← List.getElem?_map, shape.rows, List.getElem?_map]

theorem map_marks : e.rows.map (·.heading.withLabel ()) = d.rows.map (·.heading.withLabel ()) := by
  have first := congrArg (List.map Prod.fst) shape.rows
  rwa [List.map_map, List.map_map] at first

theorem map_moves : e.rows.map e.moves = d.rows.map d.moves := by
  have second := congrArg (List.map Prod.snd) shape.rows
  rwa [List.map_map, List.map_map] at second

theorem size : e.size = d.size := by
  have same := congrArg List.length shape.rows
  rwa [List.length_map, List.length_map] at same

theorem move?_eq (i n : Nat) : e.move? i n = d.move? i n := by
  have moved := congrArg (fun all => (all[i]?).bind fun ms => ms[n]?.join) shape.map_moves
  simp only [List.getElem?_map, Option.bind_map] at moved
  exact moved

theorem step?_eq (i : Nat) (c : Char) : e.step? i c = d.step? i c := by
  rw [Dfa.step?_eq, Dfa.step?_eq, column?_congr shape.alphabet, funext (shape.move?_eq i)]

theorem isAccepting_eq (i : Nat) : e.isAccepting i = d.isAccepting i := by
  have marked := congrArg (fun marks => (marks[i]?).any (·.accepts)) shape.map_marks
  simp only [List.getElem?_map, Option.any_map] at marked
  exact marked

theorem map_starts : e.rows.map (·.heading.starts) = d.rows.map (·.heading.starts) := by
  have marked := congrArg (List.map (·.starts)) shape.map_marks
  rwa [List.map_map, List.map_map] at marked

theorem start?_eq : e.start? = d.start? := by
  have first := congrArg (List.findIdx? id) shape.map_starts
  rwa [List.findIdx?_map, List.findIdx?_map] at first

theorem acceptsFrom_eq (i : Nat) (w : List Char) : e.acceptsFrom i w = d.acceptsFrom i w := by
  rw [acceptsFrom, acceptsFrom, follow_congr shape.step?_eq, funext shape.isAccepting_eq]

theorem accepts_eq (w : List Char) : e.accepts w = d.accepts w := by
  rw [accepts, accepts, shape.start?_eq, funext (follow_congr shape.step?_eq · w),
    funext shape.isAccepting_eq]

theorem startsAt {s : Nat} (starts : d.StartsAt s) : e.StartsAt s := by
  refine ⟨shape.size ▸ starts.lt, fun i r row => ?_⟩
  have marked := congrArg (·[i]?) shape.map_starts
  simp only [List.getElem?_map, row, Option.map_some] at marked
  obtain ⟨r', row', same⟩ := Option.map_eq_some_iff.mp marked.symm
  rw [← same]
  exact starts.iff i r' row'

end SameShape

end FiniteAutomata.Dfa
