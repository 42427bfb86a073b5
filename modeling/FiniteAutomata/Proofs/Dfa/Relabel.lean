import FiniteAutomata.Dfa.Minimize
import FiniteAutomata.Proofs.Dfa.Shape
import Mathlib.Data.List.Nodup
import Std.Data.String.ToNat

/-!
Renaming the rows of a closed table succeeds and changes nothing but names: rows keep their places,
their marks and their moves.
-/

namespace FiniteAutomata.Dfa

variable {d e : Dfa} {i j : Nat}

theorem positionName_inj (same : positionName i = positionName j) : i = j :=
  Nat.repr_injective (String.append_right_inj _ |>.mp same)

def renamedRowAt (d : Dfa) (i : Nat) (r : Row) : Row := renamedRow r i (d.moves r)

theorem getElem?_renamedRows (d : Dfa) (i : Nat) :
    (((d.rows.zip (d.rows.map d.moves)).zipIdx).map fun ((r, ts), i) => renamedRow r i ts)[i]? =
      d.rows[i]?.map (d.renamedRowAt i) := by
  rw [← List.map_prod_left_eq_zip, List.getElem?_map, List.getElem?_zipIdx, List.getElem?_map,
    Nat.zero_add]
  cases d.rows[i]? <;> rfl

/-- What renaming makes of a closed table. -/
structure Renamed (d e : Dfa) : Prop where
  alphabet : e.alphabet = d.alphabet
  row : ∀ i, e.rows[i]? = d.rows[i]?.map (d.renamedRowAt i)

theorem Closed.exists_relabel_eq_ok (closed : d.Closed) :
    ∃ e, d.relabel = .ok e ∧ Renamed d e := by
  have rows := d.getElem?_renamedRows
  have made : d.relabel = ofRows d.alphabet
      (((d.rows.zip (d.rows.map d.moves)).zipIdx).map fun ((r, ts), i) => renamedRow r i ts) := by
    rw [relabel, closed.transitions_eq_ok]
    rfl
  generalize (((d.rows.zip (d.rows.map d.moves)).zipIdx).map
    fun ((r, ts), i) => renamedRow r i ts) = renamed at rows made
  have width : ∀ r ∈ renamed, r.targets.length = d.alphabet.length := by
    intro r hr
    obtain ⟨i, row⟩ := List.mem_iff_getElem?.mp hr
    rw [rows, Option.map_eq_some_iff] at row
    obtain ⟨r', row', rfl⟩ := row
    show ((d.moves r').map _).length = _
    rw [List.length_map, length_moves (List.mem_of_getElem? row')]
  have distinct : (renamed.map (·.heading.label)).Nodup := by
    rw [List.nodup_iff_getElem?_ne_getElem?]
    intro i j less lt same
    have name (k : Nat) (bound : k < renamed.length) :
        (renamed.map (·.heading.label))[k]? = some (positionName k) := by
      have some := List.getElem?_eq_getElem bound
      rw [rows, Option.map_eq_some_iff] at some
      obtain ⟨r, row, -⟩ := some
      rw [List.getElem?_map, rows, row]
      rfl
    rw [List.length_map] at lt
    rw [name i (by omega), name j lt, Option.some.injEq] at same
    exact absurd (positionName_inj same) (Nat.ne_of_lt less)
  refine ⟨⟨d.alphabet, renamed, width, distinct⟩, ?_, rfl, rows⟩
  rw [made, ofRows_eq_ok_iff]
  exact ⟨rfl, rfl⟩

namespace Renamed

variable (renamed : Renamed d e)
include renamed

theorem index?_positionName (lt : i < d.size) : e.index? (positionName i) = some i := by
  obtain ⟨r, row⟩ := exists_row lt
  rw [index?_eq_some_iff]
  refine ⟨d.renamedRowAt i r, ?_, rfl⟩
  rw [renamed.row, row, Option.map_some]

theorem moves_renamedRowAt (i : Nat) (r : Row) : e.moves (d.renamedRowAt i r) = d.moves r := by
  show (((d.moves r).map (Option.map positionName)).map (·.bind e.index?)) = d.moves r
  rw [List.map_map]
  refine (List.map_congr_left fun target member => ?_).trans (List.map_id _)
  cases target with
  | none => rfl
  | some j => exact renamed.index?_positionName (lt_size_of_mem_moves member)

theorem sameShape : SameShape d e where
  alphabet := renamed.alphabet
  rows := by
    apply List.ext_getElem?
    intro i
    rw [List.getElem?_map, List.getElem?_map, renamed.row, Option.map_map]
    refine congrArg (Option.map · d.rows[i]?) (funext fun r => ?_)
    show (r.heading.withLabel (), e.moves (d.renamedRowAt i r)) = (r.heading.withLabel (), d.moves r)
    rw [renamed.moves_renamedRowAt]

theorem map_label : e.rows.map (·.heading.label) = (List.range d.size).map positionName := by
  apply List.ext_getElem?
  intro i
  rw [List.getElem?_map, List.getElem?_map, renamed.row, Option.map_map]
  by_cases lt : i < d.size
  · obtain ⟨r, row⟩ := exists_row lt
    rw [row, List.getElem?_range lt]
    rfl
  · have le := Nat.le_of_not_lt lt
    rw [List.getElem?_eq_none le, List.getElem?_eq_none (by simpa using le)]
    rfl

theorem accepts_eq (w : List Char) : e.accepts w = d.accepts w := renamed.sameShape.accepts_eq w

theorem startsAt {s : Nat} (starts : d.StartsAt s) : e.StartsAt s :=
  renamed.sameShape.startsAt starts

theorem closed : e.Closed := by
  intro r member target named
  obtain ⟨i, row⟩ := List.mem_iff_getElem?.mp member
  rw [renamed.row, Option.map_eq_some_iff] at row
  obtain ⟨r', -, rfl⟩ := row
  obtain ⟨move, moved, same⟩ := List.mem_map.mp named
  cases move with
  | none => cases same
  | some j =>
    obtain rfl := Option.some.inj same
    exact ⟨j, renamed.index?_positionName (lt_size_of_mem_moves moved)⟩

end Renamed

end FiniteAutomata.Dfa
