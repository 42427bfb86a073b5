import FiniteAutomata.Proofs.Dfa.Quotient

/-!
Reduced tables: columns tell any two rows apart. Merging leaves a reduced table, because rows of it
that are alike come from alike rows; and a reduced table is as it is after merging, row by row.
-/

namespace FiniteAutomata.Dfa

variable {d m : Dfa} {p : Partition} {i k l : Nat} {r : Row}

def Reduced (d : Dfa) : Prop := ∀ i < d.size, ∀ j < d.size, d.Alike i j → i = j

/-! ### Merged tables are reduced -/

section Merging

variable (respects : d.Respects p) (merged : d.Merged p m)
include respects merged

theorem outcome_place (lt : i < d.size) (spot : d.place p m i = some k) (columns : List Nat) :
    m.outcome k columns = d.outcome i columns := by
  rw [outcome, outcome, walk_place respects merged lt spot]
  exact map_isAccepting_place respects merged fun _ walked => lt_size_of_walk lt walked

theorem reduced_merged (classifies : d.Classifies d.Alike p) : m.Reduced := by
  intro k hk l hl alike
  obtain ⟨i, hi, spot⟩ := merged.exists_place_eq hk
  obtain ⟨j, hj, spot'⟩ := merged.exists_place_eq hl
  have before : d.Alike i j := by
    intro columns inside
    rw [← merged.alphabet] at inside
    rw [← outcome_place respects merged hi spot, ← outcome_place respects merged hj spot']
    exact alike columns inside
  rw [classifies.place_eq hi hj before, spot'] at spot
  exact (Option.some.inj spot).symm

end Merging

/-! ### Merging a reduced table -/

section Fixpoint

variable (reduced : d.Reduced) (classifies : d.Classifies d.Alike p)
include reduced classifies

theorem Reduced.rep_eq (lt : i < d.size) : p.rep i = i := by
  have below := classifies.of.rep_lt lt
  have alike := (classifies.rep_eq_iff below lt).mp (classifies.of.rep_rep lt)
  exact reduced _ below i lt alike

theorem Reduced.blockOf_eq (lt : i < d.size) : p.blockOf i = [i] := by
  obtain ⟨member, hi⟩ := classifies.of.blockOf_mem lt
  rw [← List.perm_singleton, List.perm_ext_iff_of_nodup (classifies.of.nodup_block member)
    (List.nodup_singleton i)]
  intro j
  rw [List.mem_singleton]
  constructor
  · intro hj
    have below := classifies.of.lt member hj
    have alike := (classifies.together_iff j below i lt).mp ⟨_, member, hj, hi⟩
    exact reduced j below i lt alike
  · rintro rfl
    exact hi

theorem Reduced.mergedAt_eq (closed : d.Closed) (row : d.rows[i]? = some r) :
    d.mergedAt p i r = r := by
  have lt := (List.getElem?_eq_some_iff.mp row).1
  -- The block of the row has no other row, and its targets represent themselves.
  have starts : anyStarts (d.rows[·]?) (p.blockOf i) = r.heading.starts := by
    rw [reduced.blockOf_eq classifies lt, anyStarts, List.any_cons, List.any_nil, Bool.or_false,
      row, Option.any_some]
  have targets : ((d.moves r).map fun t => t.bind fun j => (d.rows[p.rep j]?).map (·.heading.label)) =
      r.targets := by
    rw [moves, List.map_map]
    refine (List.map_congr_left fun target member => ?_).trans (List.map_id _)
    cases target with
    | none => rfl
    | some label =>
      obtain ⟨j, found⟩ := closed r (List.mem_of_getElem? row) label member
      obtain ⟨r', row', rfl⟩ := index?_eq_some_iff.mp found
      have rep := reduced.rep_eq classifies (lt_size_of_index?_eq_some found)
      simp [found, rep, row']
  show (⟨{ r.heading with starts := _ }, _⟩ : Row) = r
  rw [starts]
  exact congrArg (Row.mk r.heading) targets

theorem Reduced.mergedList_eq (closed : d.Closed) : d.mergedList p = d.rows := by
  have all : d.representatives p = List.range d.size := by
    rw [representatives, List.filter_eq_self]
    intro i member
    simpa using reduced.rep_eq classifies (List.mem_range.mp member)
  apply List.ext_getElem?
  intro k
  rw [getElem?_mergedList, all]
  by_cases lt : k < d.size
  · obtain ⟨r, row⟩ := exists_row lt
    rw [List.getElem?_range lt, Option.bind_some, row, Option.map_some,
      reduced.mergedAt_eq classifies closed row]
  · have le := Nat.le_of_not_lt lt
    rw [List.getElem?_eq_none (by simpa using le), List.getElem?_eq_none le, Option.bind_none]

end Fixpoint

theorem Reduced.minimize_eq_ok (reduced : d.Reduced) (closed : d.Closed) :
    d.minimize = .ok d := by
  obtain ⟨p, m, made, -, classifies, merged, rows⟩ := closed.exists_minimize_classifies
  rw [made, ext merged.alphabet (rows.trans (reduced.mergedList_eq classifies closed))]

/-- Minimizing a minimized table changes nothing, and columns tell its rows apart. -/
theorem Closed.exists_minimize_minimize (closed : d.Closed) :
    ∃ m, d.minimize = .ok m ∧ m.minimize = .ok m ∧
      ∀ k < m.size, ∀ l < m.size, k ≠ l → ∃ columns : List Nat,
        (∀ n ∈ columns, n < m.alphabet.length) ∧ m.outcome k columns ≠ m.outcome l columns := by
  obtain ⟨p, m, made, respects, classifies, merged, -⟩ := closed.exists_minimize_classifies
  have reduced := reduced_merged respects merged classifies
  have closed' := closed_merged respects merged
  refine ⟨m, made, reduced.minimize_eq_ok closed', fun k hk l hl other => ?_⟩
  by_contra! same
  exact other (reduced k hk l hl same)

theorem exists_minimize_minimize_twoColumns : twoColumns.Closed ∧
    ∃ m, twoColumns.minimize = .ok m ∧ m.minimize = .ok m ∧
      ∀ k < m.size, ∀ l < m.size, k ≠ l → ∃ columns : List Nat,
        (∀ n ∈ columns, n < m.alphabet.length) ∧ m.outcome k columns ≠ m.outcome l columns :=
  ⟨by decide, Closed.exists_minimize_minimize (by decide)⟩

example : (twoColumns.minimize.toOption.map (·.rows)) = some [
    ⟨⟨"1", true, false⟩, [some "3", some "3"]⟩,
    ⟨⟨"2", true, false⟩, [some "3", none]⟩,
    ⟨⟨"3", false, true⟩, [none, some "1"]⟩] := by decide +kernel

end FiniteAutomata.Dfa
