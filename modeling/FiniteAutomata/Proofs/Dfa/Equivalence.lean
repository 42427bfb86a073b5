import FiniteAutomata.Proofs.Dfa.Columns
import FiniteAutomata.Proofs.Dfa.Rounds

/-!
The partitions of a closed table are its rows sorted by behaviour. Each refinement takes one more
column into account, so the partition after `k` of them puts together the rows that no `k` columns
tell apart, and the last one those that no columns do.
-/

namespace FiniteAutomata

namespace Partition

variable {β : Type} [DecidableEq β] {n : Nat} {p : Partition} {i j : Nat}

/-- The rows are in one block. -/
def Together (p : Partition) (i j : Nat) : Prop := ∃ block ∈ p, i ∈ block ∧ j ∈ block

theorem Of.together_iff (of : Of n p) (hi : i < n) (hj : j < n) :
    p.Together i j ↔ p.rep i = p.rep j := by
  constructor
  · rintro ⟨block, member, hi', hj'⟩
    exact of.rep_congr hi ((of.blockOf_eq member hi').trans (of.blockOf_eq member hj').symm)
  · intro same
    have blocks : p.blockOf i = p.blockOf j := by
      rw [← of.blockOf_rep hi, same, of.blockOf_rep hj]
    obtain ⟨member, hi'⟩ := of.blockOf_mem hi
    exact ⟨_, member, hi', blocks ▸ (of.blockOf_mem hj).2⟩

theorem together_flatMap_splitBy {f : Nat → β} :
    Together (p.flatMap (splitBy f)) i j ↔ p.Together i j ∧ f i = f j := by
  constructor
  · rintro ⟨part, member, hi, hj⟩
    obtain ⟨block, whole, member⟩ := List.mem_flatMap.mp member
    have sub := (sublist_of_mem_splitBy member).subset
    obtain ⟨k, -, rfl⟩ := (mem_splitBy (List.ne_nil_of_mem (sub hi))).mp member
    have hi := List.mem_filter.mp hi
    have hj := List.mem_filter.mp hj
    refine ⟨⟨block, whole, hi.1, hj.1⟩, ?_⟩
    rw [of_decide_eq_true hi.2, of_decide_eq_true hj.2]
  · rintro ⟨⟨block, whole, hi, hj⟩, same⟩
    refine ⟨block.filter (f · = f i), ?_, ?_, ?_⟩
    · exact List.mem_flatMap.mpr ⟨block, whole, (mem_splitBy (List.ne_nil_of_mem hi)).mpr ⟨i, hi, rfl⟩⟩
    · exact List.mem_filter.mpr ⟨hi, by simp⟩
    · exact List.mem_filter.mpr ⟨hj, by simp [same]⟩

end Partition

namespace Dfa

variable {d : Dfa} {p : Partition} {alike : Nat → Nat → Prop} {i j k : Nat}

/-- The partition sorts the rows of the table by a relation: its blocks list alike rows in table
order. -/
structure Classifies (d : Dfa) (alike : Nat → Nat → Prop) (p : Partition) : Prop where
  of : Partition.Of d.size p
  together_iff : ∀ i < d.size, ∀ j < d.size, p.Together i j ↔ alike i j

theorem Classifies.rep_eq_iff (classifies : d.Classifies alike p) (hi : i < d.size)
    (hj : j < d.size) : p.rep i = p.rep j ↔ alike i j := by
  rw [← classifies.of.together_iff hi hj, classifies.together_iff i hi j hj]

theorem Classifies.place_eq (classifies : d.Classifies alike p) (hi : i < d.size) (hj : j < d.size)
    (same : alike i j) (m : Dfa) : d.place p m i = d.place p m j := by
  rw [place, place, (classifies.rep_eq_iff hi hj).mpr same]

/-! ### One refinement -/

theorem Classifies.map_rep_move?_eq_iff (classifies : d.Classifies alike p) (n : Nat) :
    (d.move? i n).map p.rep = (d.move? j n).map p.rep ↔
      Option.Rel alike (d.move? i n) (d.move? j n) := by
  cases left : d.move? i n with
  | none =>
    cases right : d.move? j n with
    | none => exact ⟨fun _ => .none, fun _ => rfl⟩
    | some j' => exact ⟨nofun, nofun⟩
  | some i' =>
    cases right : d.move? j n with
    | none => exact ⟨nofun, nofun⟩
    | some j' =>
      rw [Option.map_some, Option.map_some, Option.some.injEq,
        classifies.rep_eq_iff (lt_size_of_move? left) (lt_size_of_move? right)]
      exact ⟨.some, fun | .some alike => alike⟩

/-- Rows have the same targets in a partition if their columns lead into the same blocks. -/
theorem Classifies.target_eq_iff (classifies : d.Classifies alike p) (hi : i < d.size)
    (hj : j < d.size) : p.target d.allMoves.toArray i = p.target d.allMoves.toArray j ↔
      ∀ n < d.alphabet.length, Option.Rel alike (d.move? i n) (d.move? j n) := by
  obtain ⟨r, row⟩ := exists_row hi
  obtain ⟨r', row'⟩ := exists_row hj
  have width := length_moves (List.mem_of_getElem? row)
  have width' := length_moves (List.mem_of_getElem? row')
  simp only [← classifies.map_rep_move?_eq_iff, Partition.target, getD_allMoves row,
    getD_allMoves row']
  constructor
  · intro same n lt
    have entry := congrArg (·[n]?) same
    simpa [getElem?_moves row lt, getElem?_moves row' lt] using entry
  · intro same
    apply List.ext_getElem?
    intro n
    by_cases lt : n < d.alphabet.length
    · simp [getElem?_moves row lt, getElem?_moves row' lt, same n lt]
    · simp [width, width', lt]

theorem classifies_byAcceptance (d : Dfa) : d.Classifies (d.AlikeUpTo 0) d.byAcceptance where
  of := d.of_byAcceptance
  together_iff i hi j hj := by
    rw [alikeUpTo_zero_iff]
    constructor
    · rintro ⟨block, member, hi, hj⟩
      exact d.constant_byAcceptance block member i hi j hj
    · intro same
      obtain ⟨block, member, hi'⟩ := d.of_byAcceptance.exists_block hi
      refine ⟨block, member, hi', ?_⟩
      rw [byAcceptance_eq, List.mem_pair] at member
      rcases member with rfl | rfl
      · have rejects := (List.mem_filter.mp hi').2
        exact List.mem_filter.mpr ⟨List.mem_range.mpr hj, same ▸ rejects⟩
      · have accepts := (List.mem_filter.mp hi').2
        exact List.mem_filter.mpr ⟨List.mem_range.mpr hj, same ▸ accepts⟩

/-- A refinement takes one more column into account. -/
theorem Classifies.refine (classifies : d.Classifies (d.AlikeUpTo k) p) :
    d.Classifies (d.AlikeUpTo (k + 1)) (p.refine d.allMoves.toArray) where
  of := classifies.of.refine d.inside_allMoves
  together_iff i hi j hj := by
    rw [Partition.refine_eq d.inside_allMoves, Partition.together_flatMap_splitBy,
      classifies.target_eq_iff hi hj, classifies.together_iff i hi j hj, alikeUpTo_succ_iff]
    constructor
    · rintro ⟨alike, columns⟩
      exact ⟨alikeUpTo_zero_iff.mp (alike.mono (Nat.zero_le k)), columns⟩
    · rintro ⟨same, columns⟩
      have alike := alikeUpTo_succ_iff.mpr ⟨same, columns⟩
      exact ⟨alike.mono (Nat.le_succ k), columns⟩

/-! ### All refinements -/

/-- A partition that a refinement leaves as it is tells apart all that columns tell apart. -/
theorem Classifies.of_refine_eq (classifies : d.Classifies (d.AlikeUpTo k) p)
    (same : p.refine d.allMoves.toArray = p) : d.Classifies d.Alike p where
  of := classifies.of
  together_iff i hi j hj := by
    -- Refining `p` any number of times leaves `p`, so it takes any number of columns into account.
    have later (m : Nat) : d.Classifies (d.AlikeUpTo (k + m)) p := by
      induction m with
      | zero => exact classifies
      | succ m ih => exact same ▸ ih.refine
    rw [alike_iff_alikeUpTo]
    constructor
    · intro together m
      have alike := ((later m).together_iff i hi j hj).mp together
      exact alike.mono (Nat.le_add_left m k)
    · intro alike
      exact (classifies.together_iff i hi j hj).mpr (alike k)

theorem classifies_allPartitions (made : d.allPartitions[k]? = some p) :
    d.Classifies (d.AlikeUpTo k) p := by
  have classifies := d.rounds_allPartitions.of_getElem? (k := 0)
    (P := fun k p => d.Classifies (d.AlikeUpTo k) p) d.classifies_byAcceptance
    (fun _ _ => Classifies.refine) made
  rwa [Nat.zero_add] at classifies

/-- There is a last partition. It tells apart all that columns tell apart. -/
theorem exists_getLast?_allPartitions (d : Dfa) :
    ∃ p, d.allPartitions.getLast? = some p ∧ d.Respects p ∧ d.Classifies d.Alike p := by
  obtain ⟨p, last, same, of, constant⟩ := d.rounds_allPartitions.exists_getLast?
    (P := fun p => Partition.Of d.size p ∧ p.Constant d.isAccepting)
    ⟨d.of_byAcceptance, d.constant_byAcceptance⟩ fun p ⟨of, constant⟩ => by
      rw [Partition.refine_eq d.inside_allMoves]
      exact ⟨of.flatMap_splitBy _, constant.refine _⟩
  have spot := last
  rw [List.getLast?_eq_getElem?] at spot
  have moves := (Partition.constant_target_iff d.inside_allMoves p).mpr same
  exact ⟨p, last, ⟨of, constant, moves⟩, (classifies_allPartitions spot).of_refine_eq same⟩

theorem Closed.exists_minimize_eq_ok (closed : d.Closed) (last : d.allPartitions.getLast? = some p)
    (respects : d.Respects p) :
    ∃ m, d.minimize = .ok m ∧ d.Merged p m ∧ m.rows = d.mergedList p := by
  obtain ⟨m, merge, merged⟩ := respects.exists_merge_eq_ok
  refine ⟨m, ?_, merged, ?_⟩
  · rw [minimize, closed.partitions_eq_ok, closed.transitions_eq_ok]
    show d.merge (d.allPartitions.getLastD []) d.allMoves = .ok m
    rw [List.getLastD_eq_getLast?, last, Option.getD_some, merge]
  · rw [merge_eq_ofRows, respects.of.getD_blocks, ofRows_eq_ok_iff] at merge
    exact merge.2

/-- Alike rows are merged, and the merged rows stay in table order. -/
theorem Closed.exists_minimize_classifies (closed : d.Closed) :
    ∃ p m, d.minimize = .ok m ∧ d.Respects p ∧ d.Classifies d.Alike p ∧ d.Merged p m ∧
      m.rows = d.mergedList p := by
  obtain ⟨p, last, respects, classifies⟩ := d.exists_getLast?_allPartitions
  obtain ⟨m, made, merged, rows⟩ := closed.exists_minimize_eq_ok last respects
  exact ⟨p, m, made, respects, classifies, merged, rows⟩

/-- The partitions exist. The one at position `k` sorts the rows by their behaviour on at most `k`
columns, and the last one by their behaviour on any number of columns. -/
theorem Closed.exists_partitions_classifies (closed : d.Closed) :
    ∃ ps, d.partitions = .ok ps ∧
      (∀ k p, ps[k]? = some p → d.Classifies (d.AlikeUpTo k) p) ∧
      ∃ p, ps.getLast? = some p ∧ d.Classifies d.Alike p := by
  obtain ⟨p, last, -, classifies⟩ := d.exists_getLast?_allPartitions
  exact ⟨d.allPartitions, closed.partitions_eq_ok, fun _ _ => classifies_allPartitions, p, last,
    classifies⟩

/-- Five rows, of which `q0` and `q2` are alike. -/
def fiveRows : Dfa where
  alphabet := ['a', 'b']
  rows := [
    ⟨⟨"q0", true, false⟩, [some "q1", some "q2"]⟩,
    ⟨⟨"q1", false, false⟩, [some "q1", some "q3"]⟩,
    ⟨⟨"q2", false, false⟩, [some "q1", some "q2"]⟩,
    ⟨⟨"q3", false, false⟩, [some "q1", some "q4"]⟩,
    ⟨⟨"q4", false, true⟩, [some "q1", some "q2"]⟩]
  length_targets := by decide
  nodup_labels := by decide

theorem exists_partitions_classifies_fiveRows : fiveRows.Closed ∧
    ∃ ps, fiveRows.partitions = .ok ps ∧
      (∀ k p, ps[k]? = some p → fiveRows.Classifies (fiveRows.AlikeUpTo k) p) ∧
      ∃ p, ps.getLast? = some p ∧ fiveRows.Classifies fiveRows.Alike p :=
  ⟨by decide, Closed.exists_partitions_classifies (by decide)⟩

example : fiveRows.partitions = .ok [
    [[0, 1, 2, 3], [4]],
    [[0, 1, 2], [3], [4]],
    [[0, 2], [1], [3], [4]],
    [[0, 2], [1], [3], [4]]] := by decide +kernel

end Dfa

end FiniteAutomata
