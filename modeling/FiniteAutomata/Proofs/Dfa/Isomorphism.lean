import FiniteAutomata.Proofs.Dfa.Quotient
import FiniteAutomata.Proofs.Dfa.Relabel
import FiniteAutomata.Proofs.Dfa.Starts

/-!
Names do not matter to closed tables. Tables of one shape are renamed to the same table, their rows
are sorted into the same partitions, and merging leaves tables of one shape again.
-/

namespace FiniteAutomata.Dfa

variable {d e m n : Dfa} {p : Partition} {i k : Nat}

/-! ### Renaming -/

/-- A row with a given outline, whose names are positions. -/
def named (i : Nat) (outline : Heading Unit × List (Option Nat)) : Row :=
  ⟨outline.1.withLabel (positionName i), outline.2.map (Option.map positionName)⟩

theorem Renamed.row_eq_named (renamed : Renamed d e) (i : Nat) :
    e.rows[i]? = ((d.rows[i]?).map d.outline).map (named i) := by
  rw [renamed.row, Option.map_map]
  rfl

theorem SameShape.relabel_eq (shape : SameShape d e) (closed : d.Closed) (closed' : e.Closed) :
    e.relabel = d.relabel := by
  obtain ⟨f, made, renamed⟩ := closed.exists_relabel_eq_ok
  obtain ⟨f', made', renamed'⟩ := closed'.exists_relabel_eq_ok
  have alphabet : f'.alphabet = f.alphabet := by
    rw [renamed'.alphabet, shape.alphabet, renamed.alphabet]
  have rows : f'.rows = f.rows := by
    apply List.ext_getElem?
    intro i
    rw [renamed'.row_eq_named, shape.map_outline, renamed.row_eq_named]
  rw [made, made', ext alphabet rows]

/-! ### Partitions -/

theorem SameShape.allPartitions_eq (shape : SameShape d e) : e.allPartitions = d.allPartitions := by
  have moves : e.allMoves = d.allMoves := shape.map_moves
  rw [allPartitions, allPartitions, byAcceptance_eq, byAcceptance_eq, moves, shape.size,
    funext shape.isAccepting_eq]

/-! ### Merging -/

theorem SameShape.isStarting_eq (shape : SameShape d e) (i : Nat) :
    e.isStarting i = d.isStarting i := by
  have marked := congrArg (fun marks => (marks[i]?).any (·.starts)) shape.map_marks
  simp only [List.getElem?_map, Option.any_map] at marked
  exact marked

theorem SameShape.representatives_eq (shape : SameShape d e) (p : Partition) :
    e.representatives p = d.representatives p := by
  rw [representatives, representatives, shape.size]

theorem outline_mergedAt (d m : Dfa) (p : Partition) (i : Nat) (r : Row) :
    m.outline (d.mergedAt p i r) = (⟨(), (p.blockOf i).any d.isStarting, r.heading.accepts⟩,
      (d.moves r).map (·.bind (d.place p m))) := by
  rw [outline, moves_mergedAt]
  rfl

/-- A row is merged into the row that has the place of its representative among all of them. -/
theorem getElem?_representatives_of_place (respects : d.Respects p) (merged : d.Merged p m)
    (rows : m.rows = d.mergedList p) (lt : i < d.size) (spot : d.place p m i = some k) :
    (d.representatives p)[k]? = some (p.rep i) := by
  obtain ⟨k', r, row, spot', row'⟩ := exists_place respects merged lt
  obtain rfl := Option.some.inj (spot.symm.trans spot')
  rw [rows, getElem?_mergedList, Option.bind_eq_some_iff] at row'
  obtain ⟨j, position, here⟩ := row'
  obtain ⟨r', row', same⟩ := Option.map_eq_some_iff.mp here
  have label : r'.heading.label = r.heading.label := congrArg (·.heading.label) same
  have found := index?_label row
  rw [← label, index?_label row'] at found
  rw [position, found]

theorem place_of_le (of : Partition.Of d.size p) (le : d.size ≤ i) : d.place p m i = none := by
  have itself : p.rep i = i := by
    rw [Partition.rep, of.blockOf_of_le le]
    rfl
  rw [place, itself, List.getElem?_eq_none le, Option.bind_none]

section Merging

variable (shape : SameShape d e) (respects : d.Respects p) (respects' : e.Respects p)
  (merged : d.Merged p m) (merged' : e.Merged p n)
  (rows : m.rows = d.mergedList p) (rows' : n.rows = e.mergedList p)
include shape respects respects' merged merged' rows rows'

theorem SameShape.place_eq (i : Nat) : e.place p n i = d.place p m i := by
  by_cases lt : i < d.size
  · have lt' : i < e.size := shape.size ▸ lt
    obtain ⟨k, -, -, spot, -⟩ := exists_place respects merged lt
    obtain ⟨k', -, -, spot', -⟩ := exists_place respects' merged' lt'
    have first := getElem?_representatives_of_place respects merged rows lt spot
    have second := getElem?_representatives_of_place respects' merged' rows' lt' spot'
    rw [shape.representatives_eq] at second
    have distinct : (d.representatives p).Nodup := List.nodup_range.filter _
    have bound := (List.getElem?_eq_some_iff.mp first).1
    rw [spot, spot', (List.getElem?_inj bound distinct).mp (first.trans second.symm)]
  · have le := Nat.le_of_not_lt lt
    rw [place_of_le respects.of le, place_of_le respects'.of (shape.size ▸ le)]

theorem SameShape.sameShape_merged : SameShape m n where
  alphabet := by rw [merged'.alphabet, shape.alphabet, merged.alphabet]
  rows := by
    have places := funext (shape.place_eq respects respects' merged merged' rows rows')
    have each (i : Nat) : ((e.rows[i]?).map (e.mergedAt p i)).map n.outline =
        ((d.rows[i]?).map (d.mergedAt p i)).map m.outline := by
      have same := shape.map_outline i
      cases row : d.rows[i]? with
      | none =>
        rw [row, Option.map_none, Option.map_eq_none_iff] at same
        rw [same, Option.map_none, Option.map_none]
        rfl
      | some r =>
        rw [row, Option.map_some, Option.map_eq_some_iff] at same
        obtain ⟨r', row', same⟩ := same
        have marks : r'.heading.accepts = r.heading.accepts := congrArg (·.1.accepts) same
        have moves : e.moves r' = d.moves r := congrArg (·.2) same
        simp only [row', Option.map_some, outline_mergedAt, places, marks, moves,
          funext shape.isStarting_eq]
    apply List.ext_getElem?
    intro k
    rw [List.getElem?_map, List.getElem?_map, rows, rows', getElem?_mergedList, getElem?_mergedList,
      Option.map_bind, Option.map_bind, shape.representatives_eq]
    exact congrArg _ (funext each)

end Merging

theorem SameShape.exists_minimize_eq_ok (shape : SameShape d e) (closed : d.Closed)
    (closed' : e.Closed) : ∃ m n, d.minimize = .ok m ∧ e.minimize = .ok n ∧
      m.Closed ∧ n.Closed ∧ SameShape m n := by
  obtain ⟨p, last, respects, -⟩ := d.exists_getLast?_allPartitions
  obtain ⟨p', last', respects', -⟩ := e.exists_getLast?_allPartitions
  obtain rfl : p = p' := by
    rw [shape.allPartitions_eq, last] at last'
    exact Option.some.inj last'
  obtain ⟨m, made, merged, rows⟩ := closed.exists_minimize_eq_ok last respects
  obtain ⟨n, made', merged', rows'⟩ := closed'.exists_minimize_eq_ok last' respects'
  exact ⟨m, n, made, made', closed_merged respects merged, closed_merged respects' merged',
    shape.sameShape_merged respects respects' merged merged' rows rows'⟩

/-- Renaming changes nothing but names, which are the positions of rows from then on. It keeps the
words and the partitions, need not be repeated, and may be done before or after merging. -/
theorem Closed.exists_relabel_sameShape (closed : d.Closed) :
    ∃ e, d.relabel = .ok e ∧ SameShape d e ∧
      e.rows.map (·.heading.label) = (List.range d.size).map positionName ∧
      (∀ w, e.accepts w = d.accepts w) ∧
      (∃ ps, d.partitions = .ok ps ∧ e.partitions = .ok ps) ∧
      e.relabel = .ok e ∧
      ∃ m n f, d.minimize = .ok m ∧ e.minimize = .ok n ∧ m.relabel = .ok f ∧ n.relabel = .ok f := by
  obtain ⟨e, made, renamed⟩ := closed.exists_relabel_eq_ok
  have shape := renamed.sameShape
  obtain ⟨m, n, minimized, minimized', closed', closed'', shape'⟩ :=
    shape.exists_minimize_eq_ok closed renamed.closed
  obtain ⟨f, relabelled, -⟩ := closed'.exists_relabel_eq_ok
  refine ⟨e, made, shape, renamed.map_label, shape.accepts_eq, ?_, ?_, m, n, f, minimized,
    minimized', relabelled, ?_⟩
  · refine ⟨d.allPartitions, closed.partitions_eq_ok, ?_⟩
    rw [renamed.closed.partitions_eq_ok, shape.allPartitions_eq]
  · rw [shape.relabel_eq closed renamed.closed, made]
  · rw [shape'.relabel_eq closed' closed'', relabelled]

/-- Rows that already have the names of other rows, two columns for one symbol, and three starting
rows, of which the last two are alike. -/
def crossed : Dfa where
  alphabet := ['a', 'b', 'a']
  rows := [
    ⟨⟨"q2", true, false⟩, [some "q0", some "q1", none]⟩,
    ⟨⟨"q0", true, true⟩, [some "q1", some "q2", some "q0"]⟩,
    ⟨⟨"q1", true, true⟩, [some "q0", some "q2", some "q1"]⟩]
  length_targets := by decide
  nodup_labels := by decide

theorem exists_relabel_sameShape_crossed : crossed.Closed ∧
    ∃ e, crossed.relabel = .ok e ∧ SameShape crossed e ∧
      e.rows.map (·.heading.label) = (List.range crossed.size).map positionName ∧
      (∀ w, e.accepts w = crossed.accepts w) ∧
      (∃ ps, crossed.partitions = .ok ps ∧ e.partitions = .ok ps) ∧
      e.relabel = .ok e ∧
      ∃ m n f, crossed.minimize = .ok m ∧ e.minimize = .ok n ∧
        m.relabel = .ok f ∧ n.relabel = .ok f :=
  ⟨by decide, Closed.exists_relabel_sameShape (by decide)⟩

example : (crossed.relabel.toOption.map (·.rows)) = some [
    ⟨⟨"q0", true, false⟩, [some "q1", some "q2", none]⟩,
    ⟨⟨"q1", true, true⟩, [some "q2", some "q0", some "q1"]⟩,
    ⟨⟨"q2", true, true⟩, [some "q1", some "q0", some "q2"]⟩] := by decide +kernel

end FiniteAutomata.Dfa
