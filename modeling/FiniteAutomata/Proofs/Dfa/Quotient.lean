import FiniteAutomata.Proofs.Dfa.Equivalence

/-!
A minimized table as the quotient of the table before. It is closed again, and reading from the row of
a block leads to the same marks as reading from any row of that block, word by word and column by
column.
-/

namespace FiniteAutomata.Dfa

variable {d m : Dfa} {p : Partition} {i k : Nat}

section Merging

variable (respects : d.Respects p) (merged : d.Merged p m)
include respects merged

theorem closed_merged : m.Closed := by
  intro row member target named
  obtain ⟨i, r, -, -, rfl⟩ := (merged.mem_rows row).mp member
  obtain ⟨move, moved, same⟩ := List.mem_map.mp named
  obtain ⟨j, rfl, label⟩ := Option.bind_eq_some_iff.mp same
  -- The target is the label of a representative, and representatives have merged rows.
  obtain ⟨k, r', here, -, row'⟩ := exists_place respects merged (lt_size_of_mem_moves moved)
  change (d.rows[p.rep j]?).map (·.heading.label) = some target at label
  rw [here] at label
  exact ⟨k, index?_eq_some_iff.mpr ⟨_, row', Option.some.inj label⟩⟩

theorem map_isAccepting_place {t : Option Nat} (inside : ∀ j ∈ t, j < d.size) :
    (t.bind (d.place p m)).map m.isAccepting = t.map d.isAccepting := by
  cases t with
  | none => rfl
  | some j =>
    have lt := inside j rfl
    obtain ⟨k, -, -, spot, -⟩ := exists_place respects merged lt
    rw [Option.bind_some, spot, Option.map_some, Option.map_some,
      isAccepting_place respects merged lt spot]

theorem map_isAccepting_follow_place (lt : i < d.size) (spot : d.place p m i = some k)
    (w : List Char) : (m.follow k w).map m.isAccepting = (d.follow i w).map d.isAccepting := by
  rw [follow_place respects merged lt spot]
  exact map_isAccepting_place respects merged fun _ followed => lt_size_of_follow lt followed

theorem walk_place (lt : i < d.size) (spot : d.place p m i = some k) (columns : List Nat) :
    m.walk k columns = (d.walk i columns).bind (d.place p m) :=
  foldlM_place respects merged (fun _ _ _ => lt_size_of_move?)
    (fun _ _ => move?_place respects merged) lt spot columns

end Merging

/-- The minimized table has a row for the first member of every block of the last partition. Words
lead from there to a row just if they do from the members of the block, and to the same mark. -/
theorem Closed.exists_minimize_simulates (closed : d.Closed) :
    ∃ ps p m, d.partitions = .ok ps ∧ ps.getLast? = some p ∧ Partition.Of d.size p ∧
      d.minimize = .ok m ∧ m.Closed ∧
      ∀ block ∈ p, ∀ s ∈ block, ∃ first r k, block.head? = some first ∧
        d.rows[first]? = some r ∧ m.index? r.heading.label = some k ∧
        ∀ w, (m.follow k w).map m.isAccepting = (d.follow s w).map d.isAccepting := by
  obtain ⟨p, last, respects, -⟩ := d.exists_getLast?_allPartitions
  obtain ⟨m, made, merged, -⟩ := closed.exists_minimize_eq_ok last respects
  refine ⟨d.allPartitions, p, m, closed.partitions_eq_ok, last, respects.of, made,
    closed_merged respects merged, fun block member s hs => ?_⟩
  have lt : s < d.size := respects.of.lt member hs
  obtain ⟨k, r, row, spot, row'⟩ := exists_place respects merged lt
  refine ⟨p.rep s, r, k, respects.of.head?_eq_some_rep member hs, row, ?_, ?_⟩
  · exact index?_eq_some_iff.mpr ⟨_, row', rfl⟩
  · exact map_isAccepting_follow_place respects merged lt spot

/-- Two columns for one symbol, two starting rows that only the second column tells apart, and two
accepting rows that nothing does. -/
def twoColumns : Dfa where
  alphabet := ['a', 'a']
  rows := [⟨⟨"1", true, false⟩, [some "3", some "4"]⟩, ⟨⟨"2", true, false⟩, [some "3", none]⟩,
    ⟨⟨"3", false, true⟩, [none, some "1"]⟩, ⟨⟨"4", false, true⟩, [none, some "1"]⟩]
  length_targets := by decide
  nodup_labels := by decide

theorem exists_minimize_simulates_twoColumns : twoColumns.Closed ∧
    ∃ ps p m, twoColumns.partitions = .ok ps ∧ ps.getLast? = some p ∧
      Partition.Of twoColumns.size p ∧ twoColumns.minimize = .ok m ∧ m.Closed ∧
      ∀ block ∈ p, ∀ s ∈ block, ∃ first r k, block.head? = some first ∧
        twoColumns.rows[first]? = some r ∧ m.index? r.heading.label = some k ∧
        ∀ w, (m.follow k w).map m.isAccepting = (twoColumns.follow s w).map twoColumns.isAccepting :=
  ⟨by decide, Closed.exists_minimize_simulates (by decide)⟩

end FiniteAutomata.Dfa
