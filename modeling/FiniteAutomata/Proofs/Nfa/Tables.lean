import FiniteAutomata.Dfa.Powerset
import FiniteAutomata.Proofs.Except
import FiniteAutomata.Proofs.Nfa.Labels

/-!
Tables of automata whose reachable states have different labels: no label is missing and no row
repeats one.
-/

namespace FiniteAutomata.Nfa

variable {a : Nfa} {i j : Nat}

def Labels (a : Nfa) (labelOf : Nat → Label) : Prop :=
  ∀ i, a.graph.Reaches a.input i → (a.graph.state i).label = some (labelOf i)

/-- Every reachable state has a label, and no two of them have the same. -/
structure Labelled (a : Nfa) (labelOf : Nat → Label) : Prop where
  label : a.Labels labelOf
  inj : ∀ i j, a.graph.Reaches a.input i → a.graph.Reaches a.input j → labelOf i = labelOf j → i = j

variable {labelOf : Nat → Label}

theorem Labels.label_eq_ok (labels : a.Labels labelOf) (reach : a.graph.Reaches a.input i) :
    a.graph.label i = .ok (labelOf i) :=
  Graph.label_eq_ok (labels i reach)

theorem alphabet_of_tabulate_eq_ok {kind : EpsilonColumn} {table : TransitionTable}
    (made : a.tabulate kind = .ok table) : table.alphabet = a.alphabet := by
  unfold tabulate TransitionTable.ofRows at made
  dsimp only at made
  cases rows : a.states.mapM (a.row kind a.alphabet) with
  | error e =>
    rw [rows] at made
    cases made
  | ok rows' =>
    rw [rows] at made
    dsimp only [bind, Except.bind] at made
    split at made
    · cases made
    · cases made
      rfl

/-- The row of a state in terms of the labels of states. -/
def rowOf (a : Nfa) (kind : EpsilonColumn) (alphabet : List Char) (labelOf : Nat → Label)
    (i : Nat) : TransitionTable.Row where
  heading := ⟨labelOf i, (a.graph.state i).starting, (a.graph.state i).accepting⟩
  columns := alphabet.map fun c => (c, (a.graph.targets i (.char c)).map labelOf)
  epsilon :=
    match kind with
    | .direct => (a.graph.targets i .epsilon).map labelOf
    | .closure => (a.graph.silentlyReachable [i]).map labelOf

theorem Labels.row_eq_ok (labels : a.Labels labelOf) (kind : EpsilonColumn)
    (alphabet : List Char) (reach : a.graph.Reaches a.input i) :
    a.row kind alphabet i = .ok (a.rowOf kind alphabet labelOf i) := by
  have targets (s : Symbol) :
      (a.graph.targets i s).mapM a.graph.label = .ok ((a.graph.targets i s).map labelOf) :=
    mapM_eq_ok fun j edge => labels.label_eq_ok (reach.tail edge)
  have columns : (alphabet.mapM fun c => do
      return (c, ← (a.graph.targets i (.char c)).mapM a.graph.label)) =
        .ok (alphabet.map fun c => (c, (a.graph.targets i (.char c)).map labelOf)) := by
    apply mapM_eq_ok
    intro c _
    rw [targets]
    rfl
  have closure : a.graph.epsilonClosure i =
      .ok ((a.graph.silentlyReachable [i]).map labelOf) := by
    rw [Graph.epsilonClosure_eq]
    apply mapM_eq_ok
    intro j member
    obtain ⟨k, hk, -, silent⟩ := Graph.mem_silentlyReachable.mp member
    obtain rfl := List.mem_singleton.mp hk
    exact labels.label_eq_ok (reach.trans silent.reaches)
  rw [row, labels.label_eq_ok reach, columns]
  cases kind with
  | direct =>
    rw [targets]
    rfl
  | closure =>
    rw [closure]
    rfl

theorem Labels.rows_eq_ok (labels : a.Labels labelOf) (kind : EpsilonColumn) :
    a.states.mapM (a.row kind a.alphabet) = .ok (a.states.map (a.rowOf kind a.alphabet labelOf)) :=
  mapM_eq_ok fun _ member => labels.row_eq_ok kind a.alphabet (mem_states.mp member)

/-- Making a table fails if and only if a label is repeated. -/
theorem Labels.tabulate_eq (labels : a.Labels labelOf) (kind : EpsilonColumn) :
    a.tabulate kind =
      match firstRepeat? (a.states.map labelOf) with
      | some label => .error (.duplicateLabel label)
      | none => .ok (.indexed a.alphabet (a.states.map (a.rowOf kind a.alphabet labelOf))) := by
  have headings : (a.states.map (a.rowOf kind a.alphabet labelOf)).map (·.heading.label) =
      a.states.map labelOf := by
    rw [List.map_map]
    rfl
  rw [tabulate, labels.rows_eq_ok]
  show TransitionTable.ofRows _ _ = _
  cases result : firstRepeat? (a.states.map labelOf) with
  | some label => rw [TransitionTable.ofRows, headings, result]
  | none => rw [TransitionTable.ofRows, headings, result]

theorem Labelled.tabulate_eq_ok (labelled : a.Labelled labelOf) (kind : EpsilonColumn) :
    a.tabulate kind =
      .ok (.indexed a.alphabet (a.states.map (a.rowOf kind a.alphabet labelOf))) := by
  have distinct : (a.states.map labelOf).Nodup := by
    apply List.Nodup.map_on _ a.nodup_states
    intro i hi j hj same
    exact labelled.inj i j (mem_states.mp hi) (mem_states.mp hj) same
  rw [labelled.label.tabulate_eq, firstRepeat?_eq_none.mpr distinct]

theorem Labels.labelled_of_firstRepeat? (labels : a.Labels labelOf)
    (distinct : firstRepeat? (a.states.map labelOf) = none) : a.Labelled labelOf where
  label := labels
  inj _ _ hi hj same := List.inj_on_of_nodup_map (firstRepeat?_eq_none.mp distinct)
    (mem_states.mpr hi) (mem_states.mpr hj) same

/-- The labels in a table are distinct. -/
theorem Labels.labelled (labels : a.Labels labelOf) {kind : EpsilonColumn}
    {table : TransitionTable} (made : a.tabulate kind = .ok table) : a.Labelled labelOf := by
  cases repeated : firstRepeat? (a.states.map labelOf) with
  | some label =>
    rw [labels.tabulate_eq, repeated] at made
    cases made
  | none => exact labels.labelled_of_firstRepeat? repeated

/-! ### Labels with plain texts -/

/-- Every reachable state has a label, no two of them have labels of the same text, and no text has
a comma. -/
structure Named (a : Nfa) (labelOf : Nat → Label) : Prop where
  label : a.Labels labelOf
  distinct : ∀ i j, a.graph.Reaches a.input i → a.graph.Reaches a.input j →
    (labelOf i).text = (labelOf j).text → i = j
  noComma : ∀ i, a.graph.Reaches a.input i → ',' ∉ (labelOf i).text.toList

theorem Named.labelled (named : a.Named labelOf) : a.Labelled labelOf :=
  ⟨named.label, fun i j hi hj same => named.distinct i j hi hj (congrArg Label.text same)⟩

def labelling (a : Nfa) (i : Nat) : Label := (a.labelled.graph.state i).label.getD (.number 0)

theorem labels_labelled (a : Nfa) : a.labelled.Labels a.labelling := by
  intro i reach
  obtain ⟨label, known, -⟩ := label_labelled (reaches_labelled.mp reach)
  rw [labelling, known, Option.getD_some]

theorem named_labelled (plain : a.PlainLabels) : a.labelled.Named a.labelling := by
  have known := a.labels_labelled
  constructor
  · exact known
  · intro i j hi hj same
    exact distinct_labelled plain (reaches_labelled.mp hi) (reaches_labelled.mp hj) (known i hi)
      (known j hj) same
  · exact fun i hi => noComma_labelled plain (reaches_labelled.mp hi) (known i hi)

end FiniteAutomata.Nfa
