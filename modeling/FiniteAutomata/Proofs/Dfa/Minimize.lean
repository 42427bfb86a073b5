import FiniteAutomata.Dfa.Minimize
import FiniteAutomata.Proofs.Dfa.Moves
import FiniteAutomata.Proofs.Dfa.Refinement

/-!
Merging the rows of a closed table by the last partition. Every row of the table behaves as the row
that its block was merged into.
-/

namespace FiniteAutomata.Dfa

variable {d m : Dfa} {p : Partition} {i j k n : Nat} {r : Row}

/-! ### The last partition -/

def allMoves (d : Dfa) : List (List (Option Nat)) := d.rows.map d.moves

theorem inside_allMoves (d : Dfa) : Partition.Inside d.allMoves.toArray := by
  intro targets member j hj
  obtain ⟨r, -, rfl⟩ := List.mem_map.mp (List.mem_toArray.mp member)
  rw [List.size_toArray, allMoves, List.length_map]
  exact lt_size_of_mem_moves hj

theorem getD_allMoves (row : d.rows[i]? = some r) : d.allMoves.toArray.getD i [] = d.moves r := by
  rw [Array.getD_eq_getD_getElem?, List.getElem?_toArray, allMoves, List.getElem?_map, row]
  rfl

/-- The rows of a block accept alike and move to the same blocks. -/
structure Respects (d : Dfa) (p : Partition) : Prop where
  of : Partition.Of d.size p
  accepting : p.Constant d.isAccepting
  moves : p.Constant (p.target d.allMoves.toArray)

theorem Respects.map_rep_move? (respects : d.Respects p) (lt : i < d.size) (n : Nat) :
    (d.move? (p.rep i) n).map p.rep = (d.move? i n).map p.rep := by
  have target {i : Nat} (lt : i < d.size) :
      (d.move? i n).map p.rep = ((p.target d.allMoves.toArray i)[n]?).join := by
    obtain ⟨r, row⟩ := exists_row lt
    rw [move?_of_row row, Partition.target, getD_allMoves row, List.getElem?_map]
    cases (d.moves r)[n]? <;> rfl
  rw [target lt, target (respects.of.rep_lt lt), respects.of.constant_rep respects.moves lt]

/-! ### Merged rows -/

/-- The row that a row at a position is merged into, in a table `m`. -/
def place (d : Dfa) (p : Partition) (m : Dfa) (i : Nat) : Option Nat :=
  (d.rows[p.rep i]?).bind fun r => m.index? r.heading.label

def mergedAt (d : Dfa) (p : Partition) (i : Nat) (r : Row) : Row :=
  mergedRow (d.rows[·]?) p.blockOf r i (d.moves r)

/-- The rows of `m` are the merged rows of the representatives. -/
structure Merged (d : Dfa) (p : Partition) (m : Dfa) : Prop where
  alphabet : m.alphabet = d.alphabet
  mem_rows : ∀ row, row ∈ m.rows ↔
    ∃ i r, d.rows[i]? = some r ∧ p.rep i = i ∧ row = d.mergedAt p i r

def mergedList (d : Dfa) (p : Partition) : List Row :=
  d.mergedRows (d.rows[·]?) p.blockOf d.allMoves

def representatives (d : Dfa) (p : Partition) : List Nat := (List.range d.size).filter fun i => p.rep i = i

theorem mem_representatives : i ∈ d.representatives p ↔ i < d.size ∧ p.rep i = i := by
  rw [representatives, List.mem_filter, List.mem_range, decide_eq_true_eq]

theorem mergedList_eq (d : Dfa) (p : Partition) : d.mergedList p =
    ((d.rows.map fun r => (r, d.moves r)).zipIdx.filter fun e => p.rep e.2 = e.2).map
      fun e => mergedRow (d.rows[·]?) p.blockOf e.1.1 e.2 e.1.2 := by
  rw [mergedList, mergedRows, allMoves, ← List.map_prod_left_eq_zip]
  rfl

theorem getElem?_mergedList : (d.mergedList p)[k]? =
    (d.representatives p)[k]?.bind fun i => (d.rows[i]?).map (d.mergedAt p i) := by
  rw [mergedList_eq]
  generalize kept : ((d.rows.map fun r => (r, d.moves r)).zipIdx.filter fun e => p.rep e.2 = e.2) =
    entries
  have positions : d.representatives p = entries.map Prod.snd := by
    have range : List.range d.size = (d.rows.map fun r => (r, d.moves r)).zipIdx.map Prod.snd := by
      rw [List.zipIdx_map_snd, List.length_map, List.range_eq_range', size]
    rw [representatives, range, List.filter_map, ← kept]
    rfl
  rw [positions, List.getElem?_map, List.getElem?_map, Option.bind_map]
  cases entry : entries[k]? with
  | none => rfl
  | some e =>
    obtain ⟨⟨r, ts⟩, i⟩ := e
    have member := List.mem_of_getElem? entry
    rw [← kept, List.mem_filter, List.mk_mem_zipIdx_iff_getElem?, List.getElem?_map,
      Option.map_eq_some_iff] at member
    obtain ⟨⟨r', row, pair⟩, -⟩ := member
    cases pair
    simp [row, mergedAt]

theorem mem_mergedList {row : Row} : row ∈ d.mergedList p ↔
    ∃ i r, d.rows[i]? = some r ∧ p.rep i = i ∧ row = d.mergedAt p i r := by
  simp only [List.mem_iff_getElem?, getElem?_mergedList, Option.bind_eq_some_iff,
    Option.map_eq_some_iff]
  constructor
  · rintro ⟨k, i, position, r, here, rfl⟩
    exact ⟨i, r, here, (mem_representatives.mp (List.mem_of_getElem? position)).2, rfl⟩
  · rintro ⟨i, r, here, fixed, rfl⟩
    have lt := (List.getElem?_eq_some_iff.mp here).1
    obtain ⟨k, position⟩ := List.mem_iff_getElem?.mp (mem_representatives.mpr ⟨lt, fixed⟩)
    exact ⟨k, i, position, r, here, rfl⟩

theorem map_label_mergedList : ((d.mergedList p).map (·.heading.label)).Sublist
    (d.rows.map (·.heading.label)) := by
  rw [mergedList_eq, List.map_map]
  have all : (d.rows.map fun r => (r, d.moves r)).zipIdx.map (fun e => e.1.1.heading.label) =
      d.rows.map (·.heading.label) := by
    have first := List.zipIdx_map_fst 0 (d.rows.map fun r => (r, d.moves r))
    have labels := congrArg (List.map fun e => e.1.heading.label) first
    rwa [List.map_map, List.map_map] at labels
  rw [← all]
  exact List.filter_sublist.map _

theorem Respects.exists_merge_eq_ok (respects : d.Respects p) :
    ∃ m, d.merge p d.allMoves = .ok m ∧ d.Merged p m := by
  have width : ∀ row ∈ d.mergedList p, row.targets.length = d.alphabet.length := by
    intro row member
    obtain ⟨i, r, row, -, rfl⟩ := mem_mergedList.mp member
    show ((d.moves r).map _).length = _
    rw [List.length_map, length_moves (List.mem_of_getElem? row)]
  have distinct := d.nodup_labels.sublist (map_label_mergedList (p := p))
  refine ⟨⟨d.alphabet, d.mergedList p, width, distinct⟩, ?_, rfl, fun row => mem_mergedList⟩
  rw [merge_eq_ofRows, respects.of.getD_blocks, ofRows_eq_ok_iff]
  exact ⟨rfl, rfl⟩

/-! ### Simulation -/

/-- A merged row moves to where the rows are merged that it moved to before. -/
theorem moves_mergedAt (d m : Dfa) (p : Partition) (i : Nat) (r : Row) :
    m.moves (d.mergedAt p i r) = (d.moves r).map (·.bind (d.place p m)) := by
  show ((d.moves r).map _).map _ = _
  rw [List.map_map]
  refine List.map_congr_left fun target _ => ?_
  cases target with
  | none => rfl
  | some j =>
    show ((d.rows[p.rep j]?).map (·.heading.label)).bind m.index? = d.place p m j
    rw [Option.bind_map]
    rfl

theorem place_of_mergedAt (row : d.rows[i]? = some r) (fixed : p.rep i = i)
    (merge : m.rows[k]? = some (d.mergedAt p i r)) : d.place p m i = some k := by
  rw [place, fixed, row, Option.bind_some]
  exact index?_eq_some_iff.mpr ⟨_, merge, rfl⟩

theorem Merged.exists_place_eq (merged : d.Merged p m) (lt : k < m.size) :
    ∃ i < d.size, d.place p m i = some k := by
  obtain ⟨row, here⟩ := exists_row lt
  obtain ⟨i, r, source, fixed, rfl⟩ := (merged.mem_rows row).mp (List.mem_of_getElem? here)
  exact ⟨i, (List.getElem?_eq_some_iff.mp source).1, place_of_mergedAt source fixed here⟩

section Simulation

variable (respects : d.Respects p) (merged : d.Merged p m)
include respects merged

theorem exists_place (lt : i < d.size) : ∃ k r, d.rows[p.rep i]? = some r ∧
    d.place p m i = some k ∧ m.rows[k]? = some (d.mergedAt p (p.rep i) r) := by
  obtain ⟨r, row⟩ := exists_row (respects.of.rep_lt lt)
  have member := (merged.mem_rows (d.mergedAt p (p.rep i) r)).mpr
    ⟨p.rep i, r, row, respects.of.rep_rep lt, rfl⟩
  obtain ⟨k, row'⟩ := List.mem_iff_getElem?.mp member
  refine ⟨k, r, row, ?_, row'⟩
  rw [place, row, Option.bind_some]
  exact index?_eq_some_iff.mpr ⟨_, row', rfl⟩

theorem move?_place (lt : i < d.size) (spot : d.place p m i = some k) (n : Nat) :
    m.move? k n = (d.move? i n).bind (d.place p m) := by
  obtain ⟨k', r, row, spot', row'⟩ := exists_place respects merged lt
  obtain rfl := Option.some.inj (spot.symm.trans spot')
  -- Places depend on representatives only, and these the block decides.
  have through (target : Option Nat) : target.bind (d.place p m) =
      (target.map p.rep).bind fun q => (d.rows[q]?).bind fun r => m.index? r.heading.label := by
    rw [Option.bind_map]
    rfl
  rw [through, ← respects.map_rep_move? lt, ← through, move?_of_row row', move?_of_row row,
    moves_mergedAt, List.getElem?_map]
  cases (d.moves r)[n]? <;> rfl

theorem step?_place (lt : i < d.size) (spot : d.place p m i = some k) (c : Char) :
    m.step? k c = (d.step? i c).bind (d.place p m) := by
  rw [step?_eq, step?_eq, column?_congr merged.alphabet, Option.bind_assoc]
  exact congrArg _ (funext (move?_place respects merged lt spot))

/-- A sequence of steps leads from a merged row to the merged row of where it leads, if single steps
do. -/
theorem foldlM_place {α : Type} {f f' : Nat → α → Option Nat}
    (inside : ∀ i a j, f i a = some j → j < d.size)
    (step : ∀ i k, i < d.size → d.place p m i = some k → ∀ a, f' k a = (f i a).bind (d.place p m))
    (lt : i < d.size) (spot : d.place p m i = some k) (xs : List α) :
    xs.foldlM f' k = (xs.foldlM f i).bind (d.place p m) := by
  induction xs generalizing i k with
  | nil => exact spot.symm
  | cons a xs ih =>
    rw [List.foldlM_cons, List.foldlM_cons, step i k lt spot]
    cases first : f i a with
    | none => rfl
    | some j =>
      have lt' := inside i a j first
      obtain ⟨k', -, -, spot', -⟩ := exists_place respects merged lt'
      show (d.place p m j).bind (xs.foldlM f') = (xs.foldlM f j).bind (d.place p m)
      rw [spot', Option.bind_some, ih lt' spot']

theorem follow_place (lt : i < d.size) (spot : d.place p m i = some k) (w : List Char) :
    m.follow k w = (d.follow i w).bind (d.place p m) :=
  foldlM_place respects merged (fun _ _ _ => lt_size_of_step?)
    (fun _ _ => step?_place respects merged) lt spot w

theorem isAccepting_place (lt : i < d.size) (spot : d.place p m i = some k) :
    m.isAccepting k = d.isAccepting i := by
  obtain ⟨k', r, row, spot', row'⟩ := exists_place respects merged lt
  obtain rfl := Option.some.inj (spot.symm.trans spot')
  rw [isAccepting_of_row row', ← respects.of.constant_rep respects.accepting lt,
    isAccepting_of_row row]
  rfl

theorem acceptsFrom_place (lt : i < d.size) (spot : d.place p m i = some k) (w : List Char) :
    m.acceptsFrom k w = d.acceptsFrom i w := by
  rw [acceptsFrom, acceptsFrom, follow_place respects merged lt spot]
  cases followed : d.follow i w with
  | none => rfl
  | some j =>
    have lt := lt_size_of_follow lt followed
    obtain ⟨k', -, -, spot', -⟩ := exists_place respects merged lt
    rw [Option.bind_some, spot']
    exact isAccepting_place respects merged lt spot'

/-- The rows that are merged into the row of a representative are those of its block. -/
theorem place_eq_iff (lt : i < d.size) (row : d.rows[j]? = some r) (fixed : p.rep j = j)
    (merge : m.rows[k]? = some (d.mergedAt p j r)) :
    d.place p m i = some k ↔ i ∈ p.blockOf j := by
  have spot : d.place p m j = some k := place_of_mergedAt row fixed merge
  have inside : j < d.size := (List.getElem?_eq_some_iff.mp row).1
  constructor
  · intro spot'
    obtain ⟨k', r', row', spot'', merge'⟩ := exists_place respects merged lt
    obtain rfl := Option.some.inj (spot'.symm.trans spot'')
    have label := congrArg (·.heading.label) (Option.some.inj (merge.symm.trans merge'))
    have here := index?_label row
    rw [show r.heading.label = r'.heading.label from label, index?_label row'] at here
    obtain rfl := Option.some.inj here
    rw [respects.of.blockOf_rep lt]
    exact (respects.of.blockOf_mem lt).2
  · intro member
    have block := respects.of.blockOf_eq (respects.of.blockOf_mem inside).1 member
    rw [← spot, place, place, respects.of.rep_congr lt block]

/-- The row that the starting row is merged into starts, and no other row does. -/
theorem startsAt_place (starts : d.StartsAt i) (spot : d.place p m i = some k) :
    m.StartsAt k := by
  obtain ⟨k', r, row, spot', row'⟩ := exists_place respects merged starts.lt
  obtain rfl := Option.some.inj (spot.symm.trans spot')
  refine ⟨(List.getElem?_eq_some_iff.mp row').1, fun n row'' atRow => ?_⟩
  obtain ⟨j, r', row, fixed, rfl⟩ := (merged.mem_rows row'').mp (List.mem_of_getElem? atRow)
  have block := place_eq_iff respects merged starts.lt row fixed atRow
  rw [spot, Option.some.injEq, eq_comm] at block
  rw [block]
  show (p.blockOf j).any (fun i => (d.rows[i]?).any (·.heading.starts)) = true ↔ _
  rw [List.any_eq_true]
  constructor
  · rintro ⟨i', member, starting⟩
    obtain ⟨r'', row, starting⟩ := Option.any_eq_true _ _ |>.mp starting
    exact (starts.iff i' r'' row).mp starting ▸ member
  · intro member
    obtain ⟨r'', row⟩ := exists_row starts.lt
    refine ⟨i, member, ?_⟩
    rw [row]
    exact (starts.iff i r'' row).mpr rfl

theorem accepts_place (starts : d.StartsAt i) (w : List Char) : m.accepts w = d.accepts w := by
  obtain ⟨k, -, -, spot, -⟩ := exists_place respects merged starts.lt
  rw [(startsAt_place respects merged starts spot).accepts_eq, starts.accepts_eq,
    acceptsFrom_place respects merged starts.lt spot]

end Simulation

end FiniteAutomata.Dfa
