import FiniteAutomata.Proofs.Dfa.LabelledSets
import FiniteAutomata.Proofs.Nfa.Rows

/-!
Sets of labels in a closure table, which knows states by their labels only. Moving sets of labels
through the table is moving sets of states through the graph, since the labels in a table are
distinct; the rows of both are the same.
-/

namespace FiniteAutomata

/-! ### Lookups -/

namespace Tabulated

/-- The labels that a character leads to from a label: its targets, each with its closure. -/
def reading (t : Tabulated) (c : Char) (label : Label) : Except AutomatonError (List Label) := do
  let targets := (← t.row label).targets c
  return (← targets.mapM fun target => return target :: (← t.closure target)).flatten

/-- The set of labels that a character leads to, if it leads anywhere. -/
def move (t : Tabulated) (s : LabelSet) (c : Char) : Except AutomatonError (Option LabelSet) := do
  match (← s.elements.mapM (t.reading c)).flatten with
  | [] => return none
  | reached => return some (.ofList reached)

def moves (t : Tabulated) (alphabet : List Char) (s : LabelSet) :
    Except AutomatonError (List (Option LabelSet)) :=
  alphabet.mapM (t.move s)

end Tabulated

/-- The row of a set of labels and of the sets that it leads to. -/
def LabelSet.row (accept : Label) (s : LabelSet) (reached : List (Option LabelSet)) : Dfa.Row where
  heading := ⟨s.text, false, s.contains accept⟩
  targets := reached.map (Option.map LabelSet.text)

/-! ### Labels of states -/

namespace Nfa

variable {a : Nfa} {labelOf : Nat → Label} {s t : StateSet} {c : Char} {i : Nat}

def closureTable (a : Nfa) (labelOf : Nat → Label) : TransitionTable :=
  .indexed a.alphabet (a.states.map (a.rowOf .closure a.alphabet labelOf))

theorem Labelled.row_eq (labelled : a.Labelled labelOf) (reach : a.graph.Reaches a.input i) :
    Tabulated.row ⟨a, some (a.closureTable labelOf)⟩ (labelOf i) =
      .ok (a.rowOf .closure a.alphabet labelOf i) :=
  Tabulated.row_of_row? rfl (labelled.row?_eq .closure a.alphabet reach)

theorem Labelled.closure_eq (labelled : a.Labelled labelOf) (reach : a.graph.Reaches a.input i) :
    Tabulated.closure ⟨a, some (a.closureTable labelOf)⟩ (labelOf i) =
      .ok ((a.graph.silentlyReachable [i]).map labelOf) := by
  rw [Tabulated.closure, labelled.row_eq reach]
  rfl

/-! ### Moving -/

section Moving

variable (labelled : a.Labelled labelOf)
include labelled

theorem Labelled.exists_reading_eq (reach : a.graph.Reaches a.input i) :
    ∃ reached, Tabulated.reading ⟨a, some (a.closureTable labelOf)⟩ c (labelOf i) = .ok reached ∧
      ∀ l, l ∈ reached ↔
        ∃ j ∈ a.graph.targets i (.char c), ∃ k, a.graph.Run j [] k ∧ labelOf k = l := by
  have follow {j : Nat} (edge : j ∈ a.graph.targets i (.char c)) :
      (do return labelOf j :: (← Tabulated.closure ⟨a, some (a.closureTable labelOf)⟩ (labelOf j)) :
        Except AutomatonError (List Label)) =
          .ok (labelOf j :: (a.graph.silentlyReachable [j]).map labelOf) := by
    rw [labelled.closure_eq (reach.tail edge)]
    rfl
  have each : ∀ target ∈ (a.graph.targets i (.char c)).map labelOf, ∃ y,
      (do return target :: (← Tabulated.closure ⟨a, some (a.closureTable labelOf)⟩ target) :
        Except AutomatonError (List Label)) = .ok y := by
    intro target member
    obtain ⟨j, edge, rfl⟩ := List.mem_map.mp member
    exact ⟨_, follow edge⟩
  obtain ⟨closures, made, members⟩ := exists_mapM_eq_ok each
  refine ⟨closures.flatten, ?_, fun l => ?_⟩
  · rw [Tabulated.reading, labelled.row_eq reach]
    dsimp only [bind, Except.bind] at made ⊢
    rw [targets_rowOf_alphabet reach, made]
    rfl
  · simp only [List.mem_flatten, members, List.mem_map]
    constructor
    · rintro ⟨_, ⟨_, ⟨j, edge, rfl⟩, closure⟩, member⟩
      obtain rfl := Except.ok.inj ((follow edge).symm.trans closure)
      refine ⟨j, edge, ?_⟩
      rcases List.mem_cons.mp member with rfl | member
      · exact ⟨j, .stop j, rfl⟩
      · obtain ⟨k, hk, rfl⟩ := List.mem_map.mp member
        obtain ⟨_, single, -, silent⟩ := Graph.mem_silentlyReachable.mp hk
        obtain rfl := List.mem_singleton.mp single
        exact ⟨k, silent, rfl⟩
    · rintro ⟨j, edge, k, silent, rfl⟩
      refine ⟨_, ⟨_, ⟨j, edge, rfl⟩, follow edge⟩, List.mem_cons_of_mem _ (List.mem_map_of_mem ?_)⟩
      exact Graph.mem_silentlyReachable.mpr
        ⟨j, List.mem_singleton_self j, Graph.lt_size_of_mem_targets edge, silent⟩

/-- The labels that a set of labels leads to are those of the states that its states lead to. -/
theorem Labelled.move_labelSet (attained : a.Attained s) (c : Char) :
    Tabulated.move ⟨a, some (a.closureTable labelOf)⟩ (a.graph.labelSet s) c =
      .ok ((a.graph.move s c).map a.graph.labelSet) := by
  have each : ∀ l ∈ (a.graph.labelSet s).elements, ∃ reached,
      Tabulated.reading ⟨a, some (a.closureTable labelOf)⟩ c l = .ok reached := by
    intro l member
    obtain ⟨i, hi, rfl⟩ := (labelled.label.mem_labelSet attained).mp member
    obtain ⟨reached, result, -⟩ := labelled.exists_reading_eq (attained.reached i hi)
    exact ⟨reached, result⟩
  obtain ⟨parts, made, members⟩ := exists_mapM_eq_ok each
  have labels (l : Label) : l ∈ parts.flatten ↔
      ∃ k ∈ a.graph.read s.elements c, labelOf k = l := by
    simp only [List.mem_flatten, members, labelled.label.mem_labelSet attained, Graph.mem_read]
    constructor
    · rintro ⟨part, ⟨_, ⟨i, hi, rfl⟩, result⟩, member⟩
      obtain ⟨_, result', iff⟩ := labelled.exists_reading_eq (attained.reached i hi)
      obtain rfl := Except.ok.inj (result.symm.trans result')
      obtain ⟨j, edge, k, silent, rfl⟩ := (iff l).mp member
      exact ⟨k, ⟨i, hi, j, edge, silent⟩, rfl⟩
    · rintro ⟨k, ⟨i, hi, j, edge, silent⟩, rfl⟩
      obtain ⟨part, result, iff⟩ := labelled.exists_reading_eq (attained.reached i hi)
      exact ⟨part, ⟨_, ⟨i, hi, rfl⟩, result⟩, (iff _).mpr ⟨j, edge, k, silent, rfl⟩⟩
  rw [Tabulated.move, made]
  dsimp only [bind, Except.bind]
  cases moved : a.graph.move s c with
  | none =>
    have still := Graph.move_eq_none_iff.mp moved
    have empty : parts.flatten = [] := by
      rw [List.eq_nil_iff_forall_not_mem]
      intro l member
      obtain ⟨k, hk, -⟩ := (labels l).mp member
      rw [still] at hk
      cases hk
    rw [empty]
    rfl
  | some t =>
    have next := attained.move moved
    obtain ⟨k, hk⟩ := List.exists_mem_of_ne_nil _ next.nonempty
    have some := (labels (labelOf k)).mpr ⟨k, (Graph.mem_move moved).mp hk, rfl⟩
    have same : SortedSet.ofList parts.flatten = a.graph.labelSet t := by
      rw [Graph.labelSet, SortedSet.ofList_eq_iff]
      intro l
      have member := @Labels.mem_labelSet _ _ t labelled.label next l
      rw [Graph.labelSet, SortedSet.mem_ofList] at member
      rw [member, labels]
      simp only [Graph.mem_move moved]
    split
    · next empty =>
      rw [empty] at some
      cases some
    · rw [same]
      rfl

theorem Labelled.labelSet_inj (s t : StateSet) (hs : a.Attained s) (ht : a.Attained t)
    (same : a.graph.labelSet s = a.graph.labelSet t) : s = t := by
  apply hs.eq_of_keys ht labelled.inj
  intro l
  rw [← labelled.label.mem_labelSet hs, same, labelled.label.mem_labelSet ht]

theorem Labelled.startClosure_eq :
    Tabulated.startClosure ⟨a, some (a.closureTable labelOf)⟩ =
      .ok ((a.graph.silentlyReachable [a.input]).map labelOf) := by
  have input := Graph.Reaches.refl a.graph a.input
  have start : Tabulated.startLabel ⟨a, some (a.closureTable labelOf)⟩ = .ok (labelOf a.input) :=
    labelled.label.label_eq_ok input
  rw [Tabulated.startClosure, Tabulated.table, start]
  exact labelled.closure_eq input

theorem Labelled.labelSet_startSet :
    SortedSet.ofList ((a.graph.silentlyReachable [a.input]).map labelOf) =
      a.graph.labelSet a.startSet := by
  rw [Graph.labelSet, SortedSet.ofList_eq_iff]
  intro l
  have member := @Labels.mem_labelSet _ _ _ labelled.label a.attained_startSet l
  rw [Graph.labelSet, SortedSet.mem_ofList] at member
  rw [member, List.mem_map, startSet]
  simp only [SortedSet.mem_ofList]

theorem Labelled.moves_labelSet (attained : a.Attained s) :
    Tabulated.moves ⟨a, some (a.closureTable labelOf)⟩ a.alphabet (a.graph.labelSet s) =
      .ok ((a.moves a.alphabet s).map (Option.map a.graph.labelSet)) := by
  rw [Tabulated.moves, moves, List.map_map]
  exact mapM_eq_ok fun c _ => labelled.move_labelSet attained c

end Moving

end Nfa

/-! ### Rows -/

theorem LabelSet.contains_iff {s : LabelSet} {l : Label} :
    s.contains l = true ↔ l ∈ s.elements := by
  rw [SortedSet.contains, List.any_eq_true]
  constructor
  · rintro ⟨m, member, same⟩
    obtain rfl : l = m := Std.LawfulEqOrd.eq_of_compare (by simpa using same)
    exact member
  · intro member
    exact ⟨l, member, by simp⟩

/-- The row of the labels of a set is the row of the set. -/
theorem LabelSet.row_labelSet (g : Graph) (accept : Label) (s : StateSet)
    (reached : List (Option StateSet)) :
    LabelSet.row accept (g.labelSet s) (reached.map (Option.map g.labelSet)) =
      g.setRow accept s reached := by
  have flag : SortedSet.contains (g.labelSet s) accept =
      s.elements.any fun i => (g.state i).label = some accept := by
    rw [Bool.eq_iff_iff, contains_iff, Graph.mem_labelSet, List.any_eq_true]
    simp only [decide_eq_true_eq]
  have texts : (reached.map (Option.map g.labelSet)).map (Option.map LabelSet.text) =
      reached.map (Option.map g.setText) := by
    rw [List.map_map]
    refine List.map_congr_left fun t _ => ?_
    cases t <;> rfl
  rw [row, Graph.setRow, flag, texts]
  rfl

end FiniteAutomata
