import FiniteAutomata.Proofs.Dfa.Minimality
import FiniteAutomata.Proofs.Occurrence
import FiniteAutomata.Proofs.Search.Discovery

/-!
The order of the rows of a powerset table. Its labels are those of the first row and of all targets,
each where it occurs first, so the rows stand in the order in which a breadth-first search from the
first one discovers them: a row is a target of one before it, and no row is farther from the first
row than those behind it.
-/

namespace FiniteAutomata

namespace Dfa

variable {d : Dfa} {i j k : Nat} {c : Char} {r s first : Row} {w : List Char}

def rowLabels (d : Dfa) : List String := d.rows.map (·.heading.label)

/-- The targets of all rows, row by row and column by column. -/
def targetLabels (d : Dfa) : List String := d.rows.flatMap fun r => r.targets.filterMap id

/-- The rows of a table that starts in its first row, in the order of a breadth-first search. -/
structure Discovered (d : Dfa) : Prop where
  listed : ∃ first rest, d.rows = first :: rest ∧
    d.rowLabels = (first.heading.label :: d.targetLabels).eraseDups
  closed : d.Closed
  reached : ∀ i < d.size, ∃ w, d.follow 0 w = some i
  earlier : ∀ i < d.size, 0 < i → ∃ k < i, ∃ c, d.step? k c = some i
  nearer : ∀ i j w, i ≤ j → d.follow 0 w = some j → ∃ v, d.follow 0 v = some i ∧ v.length ≤ w.length
  starts : d.StartsAt 0

/-- Different symbols have columns of their own, so a row leads to just the rows that its targets
name. -/
theorem exists_step?_iff (distinct : d.alphabet.Nodup) (source : d.rows[k]? = some r)
    (row : d.rows[j]? = some s) :
    (∃ c, d.step? k c = some j) ↔ some s.heading.label ∈ r.targets := by
  constructor
  · rintro ⟨c, step⟩
    rw [step?_eq, Option.bind_eq_some_iff] at step
    obtain ⟨n, -, moved⟩ := step
    rw [move?_of_row source, Option.join_eq_some_iff] at moved
    obtain ⟨target, member, found⟩ := List.mem_map.mp (List.mem_of_getElem? moved)
    obtain ⟨label, rfl, found⟩ := Option.bind_eq_some_iff.mp found
    obtain ⟨s', row', rfl⟩ := index?_eq_some_iff.mp found
    obtain rfl := Option.some.inj (row.symm.trans row')
    exact member
  · intro member
    obtain ⟨n, spot⟩ := List.mem_iff_getElem?.mp member
    have lt : n < d.alphabet.length := by
      rw [← d.length_targets r (List.mem_of_getElem? source)]
      exact (List.getElem?_eq_some_iff.mp spot).1
    refine ⟨d.alphabet[n], ?_⟩
    rw [step?_getElem distinct lt, move?_of_row source, moves, List.getElem?_map, spot]
    exact index?_label row

/-! ### The order of labels -/

theorem getElem?_rowLabels (d : Dfa) (i : Nat) :
    d.rowLabels[i]? = (d.rows[i]?).map (·.heading.label) :=
  List.getElem?_map

theorem exists_row_of_step? (step : d.step? k c = some j) : ∃ r, d.rows[k]? = some r := by
  cases source : d.rows[k]? with
  | some r => exact ⟨r, rfl⟩
  | none =>
    rw [step?, target?, source] at step
    cases step

theorem follow_concat (d : Dfa) (i : Nat) (w : List Char) (c : Char) :
    d.follow i (w ++ [c]) = (d.follow i w).bind (d.step? · c) := by
  rw [follow_append]
  refine Option.bind_congr fun j _ => ?_
  rw [follow_cons]
  exact Option.bind_fun_some _

section Order

variable (distinct : d.alphabet.Nodup) {rest : List Row} (rows : d.rows = first :: rest)
  (listed : d.rowLabels = (first.heading.label :: d.targetLabels).eraseDups)
include distinct rows listed

/-- A row before the target of a row is the target of that row or of one before it. -/
theorem exists_source_le (step : d.step? k c = some j) (le : i ≤ j) (pos : 0 < i) :
    ∃ l ≤ k, ∃ c, d.step? l c = some i := by
  obtain ⟨r, source⟩ := exists_row_of_step? step
  obtain ⟨s, row⟩ := exists_row (lt_size_of_step? step)
  obtain ⟨t, row'⟩ := exists_row (Nat.lt_of_le_of_lt le (lt_size_of_step? step))
  have target := (exists_step?_iff distinct source row).mp ⟨c, step⟩
  -- The labels up to the targets of row `k` are a front of all labels.
  let front := (d.rows.take (k + 1)).flatMap fun r => r.targets.filterMap id
  let back := (d.rows.drop (k + 1)).flatMap fun r => r.targets.filterMap id
  have split : first.heading.label :: d.targetLabels = (first.heading.label :: front) ++ back := by
    rw [List.cons_append, ← List.flatMap_append, List.take_append_drop, targetLabels]
  have member : s.heading.label ∈ first.heading.label :: front := by
    refine List.mem_cons_of_mem _ (List.mem_flatMap.mpr ⟨r, ?_, by simpa using target⟩)
    exact List.mem_of_getElem? (i := k) (by rw [List.getElem?_take_of_lt (by omega), source])
  have label {n : Nat} {u : Row} (row : d.rows[n]? = some u) :
      ((first.heading.label :: front) ++ back).eraseDups[n]? = some u.heading.label := by
    rw [← split, ← listed, getElem?_rowLabels, row, Option.map_some]
  rcases List.mem_cons.mp (mem_front_of_le le (label row) member (label row')) with same | inside
  · have here := index?_label row'
    rw [same, index?_label (i := 0) (by rw [rows]; rfl)] at here
    exact absurd (Option.some.inj here) (Nat.ne_of_lt pos)
  · obtain ⟨u, source', target'⟩ := List.mem_flatMap.mp inside
    obtain ⟨l, source'⟩ := List.mem_iff_getElem?.mp source'
    have before : l < k + 1 := by
      have bound := (List.getElem?_eq_some_iff.mp source').1
      rw [List.length_take] at bound
      omega
    rw [List.getElem?_take_of_lt before] at source'
    refine ⟨l, Nat.le_of_lt_succ before, (exists_step?_iff distinct source' row').mpr ?_⟩
    simpa using target'

/-- A way to a row goes through an earlier row that leads there, if rows behind it are on the way. -/
theorem exists_earlier_source (followed : d.follow 0 w = some j) (le : i ≤ j) (pos : 0 < i) :
    ∃ k < i, ∃ c, d.step? k c = some i := by
  induction w using List.reverseRecOn generalizing j with
  | nil =>
    obtain rfl := Option.some.inj followed
    omega
  | append_singleton w c ih =>
    rw [follow_concat, Option.bind_eq_some_iff] at followed
    obtain ⟨k, before, step⟩ := followed
    by_cases inside : i ≤ k
    · exact ih before inside
    · obtain ⟨l, le', step'⟩ := exists_source_le distinct rows listed step le pos
      exact ⟨l, by omega, step'⟩

theorem exists_follow_length_le (followed : d.follow 0 w = some j) (le : i ≤ j) :
    ∃ v, d.follow 0 v = some i ∧ v.length ≤ w.length := by
  induction w using List.reverseRecOn generalizing i j with
  | nil =>
    obtain rfl := Option.some.inj followed
    obtain rfl := Nat.le_zero.mp le
    exact ⟨[], rfl, Nat.le_refl 0⟩
  | append_singleton w c ih =>
    rcases Nat.eq_zero_or_pos i with rfl | pos
    · exact ⟨[], rfl, Nat.zero_le _⟩
    rw [follow_concat, Option.bind_eq_some_iff] at followed
    obtain ⟨k, before, step⟩ := followed
    obtain ⟨l, le', c', step'⟩ := exists_source_le distinct rows listed step le pos
    obtain ⟨v, reached, short⟩ := ih before le'
    refine ⟨v ++ [c'], ?_, by simpa using short⟩
    rw [follow_concat, reached, Option.bind_some, step']

end Order

end Dfa

/-! ### Powerset tables -/

namespace Nfa

variable {a : Nfa} {alphabet : List Char} {accept : Label} {d : Dfa}

theorem map_targets_startFirst (rows : List Dfa.Row) :
    (Dfa.startFirst rows).map (·.targets) = rows.map (·.targets) := by
  cases rows <;> rfl

theorem sets_eq_eraseDups (a : Nfa) (alphabet : List Char) : a.sets alphabet =
    (a.startSet :: Search.successorsIn (a.reachableSets alphabet)).eraseDups :=
  Search.map_fst_breadthFirst (fun _ attained _ member => attained.of_mem_moves member)
    a.attained_startSet a.atMost_attained

theorem rowLabels_powerset (made : a.powerset alphabet accept = .ok d) :
    d.rowLabels = (a.sets alphabet).map a.graph.setText := by
  rw [powerset_eq_ofRows, Dfa.ofRows_eq_ok_iff] at made
  rw [Dfa.rowLabels, made.2, map_label_setRows]

theorem targetLabels_powerset (made : a.powerset alphabet accept = .ok d) : d.targetLabels =
    (Search.successorsIn (a.reachableSets alphabet)).map a.graph.setText := by
  rw [powerset_eq_ofRows, Dfa.ofRows_eq_ok_iff] at made
  have columns : d.rows.map (·.targets) =
      (a.reachableSets alphabet).map fun e => e.2.map (Option.map a.graph.setText) := by
    rw [made.2, setRows, map_targets_startFirst, List.map_map]
    rfl
  have labels := congrArg (List.flatMap (List.filterMap id)) columns
  rw [List.flatMap_map, List.flatMap_map] at labels
  rw [Dfa.targetLabels, labels, Search.successorsIn, List.map_flatMap]
  refine List.flatMap_congr fun e _ => ?_
  rw [List.filterMap_map, List.map_filterMap]
  rfl

/-- Sets are discovered before they have texts. Different rows have different labels, so texts are
repeated where sets are. -/
theorem rowLabels_eq_eraseDups (made : a.powerset alphabet accept = .ok d) :
    d.rowLabels = (a.graph.setText a.startSet :: d.targetLabels).eraseDups := by
  have texts := rowLabels_powerset made
  have distinct : ((a.sets alphabet).map a.graph.setText).Nodup := texts ▸ d.nodup_labels
  have member (s : StateSet) : s ∈ a.startSet :: Search.successorsIn (a.reachableSets alphabet) ↔
      s ∈ a.sets alphabet := by
    rw [sets_eq_eraseDups, List.mem_eraseDups]
  rw [texts, targetLabels_powerset made, ← List.map_cons, eraseDups_map, ← sets_eq_eraseDups]
  intro s hs t ht same
  exact List.inj_on_of_nodup_map distinct ((member s).mp hs) ((member t).mp ht) same

theorem discovered_of_powerset (made : a.powerset alphabet accept = .ok d)
    (covers : a.Covers alphabet) (distinct : alphabet.Nodup) : d.Discovered := by
  rw [← alphabet_powerset made] at distinct
  obtain ⟨first, rest, rows⟩ := List.exists_cons_of_length_pos (startsAt_powerset made).lt
  have start := getElem?_powerset made 0
  rw [sets_zero, rows] at start
  have listed := rowLabels_eq_eraseDups made
  rw [show a.graph.setText a.startSet = first.heading.label from
    congrArg (·.heading.label) (Option.some.inj start).symm] at listed
  have reached (i : Nat) (lt : i < d.size) := exists_follow_powerset made covers lt
  refine ⟨⟨first, rest, rows, listed⟩, closed_powerset made, reached, fun i lt pos => ?_, ?_,
    startsAt_powerset made⟩
  · obtain ⟨w, followed⟩ := reached i lt
    exact Dfa.exists_earlier_source distinct rows listed followed (Nat.le_refl i) pos
  · intro i j w le followed
    exact Dfa.exists_follow_length_le distinct rows listed followed le

end Nfa

namespace Tabulated

variable {a : Nfa} {d : Dfa}

/-- The rows of a powerset table are listed as a breadth-first search discovers them, and the first
is the only one that starts. -/
theorem discovered_powerset (made : (Tabulated.powerset ⟨a, none⟩).2 = .ok d) : d.Discovered := by
  obtain ⟨accept, -, made⟩ := of_powerset_eq_ok made
  exact Nfa.discovered_of_powerset made a.labelled.covers_alphabet a.labelled.nodup_alphabet

/-- Words over two letters that end with `ab`. -/
def suffixAb : Nfa where
  graph :=
    let states := ((Graph.empty.add false).add false).add true
    let loops := (states.withEdge 0 (.char 'a') 0).withEdge 0 (.char 'b') 0
    (loops.withEdge 0 (.char 'a') 1).withEdge 1 (.char 'b') 2
  input := 0
  output := 2
  input_lt := by decide
  output_lt := by decide

theorem discovered_powerset_suffixAb : ∃ d, (Tabulated.powerset ⟨suffixAb, none⟩).2 = .ok d ∧
    d.rows = [
      ⟨⟨"1", true, false⟩, [some "1", some "1,2"]⟩,
      ⟨⟨"1,2", false, false⟩, [some "1,3", some "1,2"]⟩,
      ⟨⟨"1,3", false, true⟩, [some "1", some "1,2"]⟩] ∧
    d.Discovered := by
  have made : (Tabulated.powerset ⟨suffixAb, none⟩).2.toOption.map (·.rows) = some [
      ⟨⟨"1", true, false⟩, [some "1", some "1,2"]⟩,
      ⟨⟨"1,2", false, false⟩, [some "1,3", some "1,2"]⟩,
      ⟨⟨"1,3", false, true⟩, [some "1", some "1,2"]⟩] := by decide +kernel
  cases outcome : (Tabulated.powerset ⟨suffixAb, none⟩).2 with
  | error e =>
    rw [outcome] at made
    cases made
  | ok d =>
    rw [outcome] at made
    exact ⟨d, rfl, Option.some.inj made, discovered_powerset outcome⟩

end Tabulated

end FiniteAutomata
