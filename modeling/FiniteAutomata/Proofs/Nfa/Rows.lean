import FiniteAutomata.Proofs.Nfa.Tables

/-!
The table of an automaton represents its reachable part: a row for every reachable state, in the
order in which the states are met, with the labels that its edges lead to. It is made unless two
reachable states have the same label.
-/

namespace FiniteAutomata

theorem TransitionTable.label_of_row? {t : TransitionTable} {l : Label} {r : Row}
    (found : t.row? l = some r) : r ∈ t.rows ∧ r.heading.label = l := by
  rw [row?_eq_find?] at found
  exact ⟨List.mem_of_find?_eq_some found, by simpa using List.find?_some found⟩

namespace Nfa

variable {a : Nfa} {labelOf : Nat → Label} {kind : EpsilonColumn} {alphabet : List Char} {c : Char}
  {i : Nat}

/-! ### Looking up rows and columns -/

theorem Labelled.row?_eq (labelled : a.Labelled labelOf) (kind : EpsilonColumn)
    (alphabet : List Char) (reach : a.graph.Reaches a.input i) :
    TransitionTable.row? (.indexed alphabet (a.states.map (a.rowOf kind alphabet labelOf)))
      (labelOf i) = some (a.rowOf kind alphabet labelOf i) := by
  rw [TransitionTable.row?_eq_find?, TransitionTable.indexed, List.find?_map]
  have first : a.states.find? (fun j => decide (labelOf j = labelOf i)) = some i := by
    cases result : a.states.find? (fun j => decide (labelOf j = labelOf i)) with
    | none =>
      have absent := List.find?_eq_none.mp result i (mem_states.mpr reach)
      simp at absent
    | some j =>
      have same : labelOf j = labelOf i := by simpa using List.find?_some result
      have reach' := mem_states.mp (List.mem_of_find?_eq_some result)
      rw [labelled.inj j i reach' reach same]
  exact congrArg _ first

theorem row?_eq_none {l : Label} (other : ∀ i, a.graph.Reaches a.input i → labelOf i ≠ l) :
    TransitionTable.row? (.indexed alphabet (a.states.map (a.rowOf kind alphabet labelOf))) l =
      none := by
  rw [TransitionTable.row?_eq_find?, TransitionTable.indexed, List.find?_map,
    Option.map_eq_none_iff, List.find?_eq_none]
  intro i member found
  exact other i (mem_states.mp member) (of_decide_eq_true found)

theorem targets_rowOf (a : Nfa) (kind : EpsilonColumn) (alphabet : List Char)
    (labelOf : Nat → Label) (i : Nat) (c : Char) :
    (a.rowOf kind alphabet labelOf i).targets c =
      if c ∈ alphabet then (a.graph.targets i (.char c)).map labelOf else [] := by
  have column : (a.rowOf kind alphabet labelOf i).columns.find? (·.1 = c) =
      (alphabet.find? fun b => decide (b = c)).map fun b =>
        (b, (a.graph.targets i (.char b)).map labelOf) :=
    List.find?_map ..
  rw [TransitionTable.Row.targets, column]
  cases found : alphabet.find? fun b => decide (b = c) with
  | none =>
    have absent : c ∉ alphabet := by simpa using List.find?_eq_none.mp found c
    rw [if_neg absent]
    rfl
  | some b =>
    obtain rfl : b = c := by simpa using List.find?_some found
    rw [if_pos (List.mem_of_find?_eq_some found)]
    rfl

/-- A column that is not in the table would be empty. -/
theorem targets_rowOf_alphabet (reach : a.graph.Reaches a.input i) (kind : EpsilonColumn)
    (labelOf : Nat → Label) (c : Char) : (a.rowOf kind a.alphabet labelOf i).targets c =
      (a.graph.targets i (.char c)).map labelOf := by
  rw [targets_rowOf]
  split
  · rfl
  · next absent =>
    rw [mem_alphabet] at absent
    have none : a.graph.targets i (.char c) = [] :=
      List.eq_nil_iff_forall_not_mem.mpr fun j edge => absent ⟨i, reach, j, edge⟩
    rw [none]
    rfl

/-! ### Tables -/

def SharedLabel (a : Nfa) (l : Label) : Prop :=
  ∃ i j, i ≠ j ∧ a.graph.Reaches a.input i ∧ a.graph.Reaches a.input j ∧
    (a.graph.state i).label = some l ∧ (a.graph.state j).label = some l

/-- The first reachable state whose label is that of a state met before it has the label `l`. -/
def FirstRepeated (a : Nfa) (l : Label) : Prop :=
  ∃ before i after, a.states = before ++ i :: after ∧
    (a.graph.state i).label = some l ∧ (∃ j ∈ before, (a.graph.state j).label = some l) ∧
    (before.map fun j => (a.graph.state j).label).Nodup

/-- The table has a row for every reachable state, found under the label of the state, and a column
for every character that is read on the way. -/
structure Represents (a : Nfa) (t : TransitionTable) : Prop where
  length : t.rows.length = a.states.length
  row : ∀ (k i : Nat), a.states[k]? = some i →
    ∃ (r : TransitionTable.Row) (label : Label), t.rows[k]? = some r ∧
      (a.graph.state i).label = some label ∧ t.row? label = some r ∧
      r.heading = ⟨label, (a.graph.state i).starting, (a.graph.state i).accepting⟩ ∧
      ∀ c, (r.targets c).map some =
        (a.graph.targets i (.char c)).map fun j => (a.graph.state j).label
  other : ∀ l, (∀ i, a.graph.Reaches a.input i → (a.graph.state i).label ≠ some l) →
    t.row? l = none
  distinct : t.alphabet.Nodup
  alphabet : ∀ c, c ∈ t.alphabet ↔
    ∃ i, a.graph.Reaches a.input i ∧ ∃ j, j ∈ a.graph.targets i (.char c)

theorem Labelled.represents (labelled : a.Labelled labelOf) (kind : EpsilonColumn) :
    a.Represents (.indexed a.alphabet (a.states.map (a.rowOf kind a.alphabet labelOf))) where
  length := List.length_map ..
  row k i state := by
    have reach := mem_states.mp (List.mem_of_getElem? state)
    refine ⟨a.rowOf kind a.alphabet labelOf i, labelOf i, ?_, labelled.label i reach,
      labelled.row?_eq kind a.alphabet reach, rfl, fun c => ?_⟩
    · show (a.states.map _)[k]? = _
      rw [List.getElem?_map, state]
      rfl
    · rw [targets_rowOf_alphabet reach, List.map_map]
      exact List.map_congr_left fun j edge => (labelled.label j (reach.tail edge)).symm
  other l other := by
    apply row?_eq_none
    intro i reach same
    exact other i reach (same ▸ labelled.label i reach)
  distinct := a.nodup_alphabet
  alphabet _ := mem_alphabet

theorem Labels.firstRepeated (labels : a.Labels labelOf) {l : Label}
    (repeated : firstRepeat? (a.states.map labelOf) = some l) : a.FirstRepeated l := by
  obtain ⟨_, _, split, distinct, met⟩ := firstRepeat?_eq_some repeated
  obtain ⟨before, rest, states, rfl, named⟩ := List.map_eq_append_iff.mp split
  obtain ⟨i, after, rfl, rfl, -⟩ := List.map_eq_cons_iff.mp named
  have known {j : Nat} (member : j ∈ before ++ i :: after) :
      (a.graph.state j).label = some (labelOf j) :=
    labels j (mem_states.mp (states ▸ member))
  have first {j : Nat} (member : j ∈ before) : (a.graph.state j).label = some (labelOf j) :=
    known (List.mem_append_left _ member)
  obtain ⟨j, member, same⟩ := List.mem_map.mp met
  refine ⟨before, i, after, states, known List.mem_append_cons_self, ⟨j, member, ?_⟩, ?_⟩
  · rw [first member, same]
  · have texts : before.map (fun j => (a.graph.state j).label) = (before.map labelOf).map some := by
      rw [List.map_map]
      exact List.map_congr_left fun j => first
    rw [texts]
    exact distinct.map (Option.some_injective _)

theorem FirstRepeated.sharedLabel {l : Label} (repeated : a.FirstRepeated l) : a.SharedLabel l := by
  obtain ⟨before, i, after, states, label, ⟨j, member, same⟩, -⟩ := repeated
  have distinct := a.nodup_states
  rw [states] at distinct
  have other : j ≠ i := by
    rintro rfl
    exact List.disjoint_of_nodup_append distinct member List.mem_cons_self
  have reach {k : Nat} (member : k ∈ before ++ i :: after) : a.graph.Reaches a.input k :=
    mem_states.mp (states ▸ member)
  exact ⟨j, i, other, reach (List.mem_append_left _ member), reach List.mem_append_cons_self,
    same, label⟩

theorem Labelled.not_sharedLabel (labelled : a.Labelled labelOf) : ¬ ∃ l, a.SharedLabel l := by
  rintro ⟨l, i, j, other, hi, hj, first, second⟩
  rw [labelled.label i hi] at first
  rw [labelled.label j hj] at second
  exact other (labelled.inj i j hi hj (Option.some.inj (first.trans second.symm)))

/-- A table of the labelled automaton is made unless two reachable states have the same label, and
represents the automaton. Otherwise the first label that is met again is reported. -/
theorem tabulate_labelled_outcome (a : Nfa) (kind : EpsilonColumn) :
    ((∃ l, a.labelled.SharedLabel l) → ∃ l, a.labelled.FirstRepeated l ∧
      a.labelled.tabulate kind = .error (.duplicateLabel l)) ∧
    ((¬ ∃ l, a.labelled.SharedLabel l) → ∃ t, a.labelled.tabulate kind = .ok t ∧
      a.labelled.Represents t) := by
  have labels := a.labels_labelled
  cases result : firstRepeat? (a.labelled.states.map a.labelling) with
  | none =>
    have labelled := labels.labelled_of_firstRepeat? result
    refine ⟨fun shared => absurd shared labelled.not_sharedLabel, fun _ => ?_⟩
    exact ⟨_, labelled.tabulate_eq_ok kind, labelled.represents kind⟩
  | some l =>
    have repeated := labels.firstRepeated result
    refine ⟨fun _ => ⟨l, repeated, ?_⟩, fun unshared => absurd ⟨l, repeated.sharedLabel⟩ unshared⟩
    rw [labels.tabulate_eq, result]

/-- Two of the three states have the same label. -/
def homonyms : Nfa where
  graph :=
    let states := (Graph.empty.add false (some (.name "p"))).add false (some (.name "q"))
    ((states.add true (some (.name "p"))).withEdge 0 (.char 'a') 1).withEdge 1 .epsilon 2
  input := 0
  output := 2
  input_lt := by decide
  output_lt := by decide

example : homonyms.labelled.tabulate .closure = .error (.duplicateLabel (.name "p")) := by cbv

end Nfa

end FiniteAutomata
