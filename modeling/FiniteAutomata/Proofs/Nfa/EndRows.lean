import FiniteAutomata.Nfa.Tabulated
import FiniteAutomata.Proofs.Nfa.Rows

/-!
The rows of the input and the output. A row is found under the label of its state, so the label of a
state that has a row finds it. An output that cannot be reached has none, and its label finds
nothing unless a reachable state was given the same label before (`finds_ends`).
-/

namespace FiniteAutomata

namespace Tabulated

/-- Looking up a label finds the row that was made of a state. -/
def Finds (t : Tabulated) (l : Label) (i : Nat) : Prop :=
  ∃ table r, t.made = some table ∧ t.row l = .ok r ∧ t.nfa.row .closure table.alphabet i = .ok r ∧
    ∃ k : Nat, t.nfa.states[k]? = some i ∧ table.rows[k]? = some r

end Tabulated

namespace Nfa.Labelled

open TransitionTable (indexed)

variable {a : Nfa} {labelOf : Nat → Label} {t : Tabulated} {l : Label} {i : Nat}
  (labelled : a.Labelled labelOf) (source : t.nfa = a)
  (made : t.made = some
    (indexed a.alphabet (a.states.map (a.rowOf .closure a.alphabet labelOf))))
include labelled source made

theorem finds_iff : t.Finds l i ↔ a.graph.Reaches a.input i ∧ labelOf i = l := by
  subst source
  constructor
  · rintro ⟨table, r, known, found, row, k, state, -⟩
    obtain rfl := Option.some.inj (made.symm.trans known)
    have reach := mem_states.mp (List.mem_of_getElem? state)
    have same := row.symm.trans (labelled.label.row_eq_ok .closure t.nfa.alphabet reach)
    obtain rfl := Except.ok.inj same
    refine ⟨reach, ?_⟩
    cases looked : TransitionTable.row? _ l with
    | none => cases found.symm.trans (Tabulated.row_of_row?_eq_none made looked)
    | some r =>
      obtain rfl := Except.ok.inj (found.symm.trans (Tabulated.row_of_row? made looked))
      exact (TransitionTable.label_of_row? looked).2
  · rintro ⟨reach, rfl⟩
    obtain ⟨k, state⟩ := List.mem_iff_getElem?.mp (mem_states.mpr reach)
    refine ⟨_, _, made, Tabulated.row_of_row? made (labelled.row?_eq .closure _ reach),
      labelled.label.row_eq_ok .closure _ reach, k, state, ?_⟩
    show (t.nfa.states.map _)[k]? = _
    rw [List.getElem?_map, state]
    rfl

theorem row_eq_error (other : ∀ i, ¬ t.Finds l i) : t.row l = .error (.unknownState l) := by
  refine Tabulated.row_of_row?_eq_none made (row?_eq_none fun i reach same => other i ?_)
  exact (labelled.finds_iff source made).mpr ⟨reach, same⟩

end Nfa.Labelled

namespace Tabulated

variable {a : Nfa} {t : Tabulated} {table : TransitionTable} {l : Label} {i : Nat}

theorem exists_labelled_of_make (made : make ⟨a, none⟩ = (t, .ok table)) :
    t.nfa = a.labelled ∧ a.labelled.Labelled a.labelling ∧ t.made = some (.indexed a.labelled.alphabet
      (a.labelled.states.map (a.labelled.rowOf .closure a.labelled.alphabet a.labelling))) := by
  cases tabulated : a.labelled.tabulate .closure with
  | error e =>
    rw [make_of_error (t := ⟨a, none⟩) rfl tabulated] at made
    cases made
  | ok table' =>
    rw [make_of_ok (t := ⟨a, none⟩) rfl tabulated] at made
    cases made
    have labelled := a.labels_labelled.labelled tabulated
    obtain rfl := Except.ok.inj ((labelled.tabulate_eq_ok .closure).symm.trans tabulated)
    exact ⟨rfl, labelled, rfl⟩

section Made

variable (made : make ⟨a, none⟩ = (t, .ok table))
include made

theorem finds_iff_label :
    t.Finds l i ↔ a.graph.Reaches a.input i ∧ (a.labelled.graph.state i).label = some l := by
  obtain ⟨source, labelled, known⟩ := exists_labelled_of_make made
  rw [labelled.finds_iff source known]
  constructor
  · rintro ⟨reach, rfl⟩
    exact ⟨Nfa.reaches_labelled.mp reach, labelled.label i reach⟩
  · rintro ⟨reach, label⟩
    have reach' := Nfa.reaches_labelled.mpr reach
    rw [labelled.label i reach'] at label
    exact ⟨reach', Option.some.inj label⟩

/-- The label of a state that has a row finds its row and no other. -/
theorem finds_iff_eq {j : Nat} (reach : a.graph.Reaches a.input j)
    (label : (a.labelled.graph.state j).label = some l) : t.Finds l i ↔ i = j := by
  obtain ⟨-, labelled, -⟩ := exists_labelled_of_make made
  rw [finds_iff_label made]
  constructor
  · rintro ⟨reach', label'⟩
    have first := Nfa.reaches_labelled.mpr reach
    have second := Nfa.reaches_labelled.mpr reach'
    rw [← label, labelled.label i second, labelled.label j first] at label'
    exact labelled.inj i j second first (Option.some.inj label')
  · rintro rfl
    exact ⟨reach, label⟩

/-- Without a row of its own, a state finds the rows of states that had its label before. -/
theorem finds_iff_preset {j : Nat} (unreached : ¬ a.graph.Reaches a.input j)
    (label : (a.labelled.graph.state j).label = some l) :
    t.Finds l i ↔ a.graph.Reaches a.input i ∧ (a.graph.state i).label = some l := by
  rw [finds_iff_label made]
  refine and_congr_right fun reach => ⟨fun same => ?_, fun preset => ?_⟩
  · have other : i ≠ j := by
      rintro rfl
      exact unreached reach
    -- A label given out now is not the text of any other, so neither of the two is new.
    exact (Nfa.preset_of_text_eq other same label rfl).1
  · have listed : i ∉ a.unlabelled := by
      intro member
      rw [(Nfa.mem_unlabelled.mp member).2] at preset
      cases preset
    rw [Nfa.label_labelled_of_not_mem listed, preset]

theorem label_of_acceptLabel (known : t.acceptLabel = .ok l) :
    (a.labelled.graph.state a.output).label = some l := by
  obtain ⟨source, -, -⟩ := exists_labelled_of_make made
  rw [acceptLabel, source] at known
  cases label : (a.labelled.graph.state a.output).label with
  | none => cases known.symm.trans (Graph.label_eq_error label)
  | some l' =>
    obtain rfl := Except.ok.inj (known.symm.trans (Graph.label_eq_ok label))
    rfl

theorem row_eq_error_iff :
    t.row l = .error (.unknownState l) ↔ ∀ i, ¬ t.Finds l i := by
  obtain ⟨source, labelled, known⟩ := exists_labelled_of_make made
  constructor
  · rintro failed i ⟨_, _, -, found, -⟩
    cases failed.symm.trans found
  · exact labelled.row_eq_error source known

/-- Once the table is made, the label of the input finds the row of the input. The label of the
output finds the row of the output if there is one. If the output cannot be reached it finds the row
of a state that was given the same label by hand, and only if there is none it is unknown. -/
theorem finds_ends : (∃ l, t.startLabel = .ok l ∧ ∀ i, t.Finds l i ↔ i = a.input) ∧
    ∀ l, t.acceptLabel = .ok l →
      (a.graph.Reaches a.input a.output → ∀ i, t.Finds l i ↔ i = a.output) ∧
      (¬ a.graph.Reaches a.input a.output →
        (∀ i, t.Finds l i ↔ a.graph.Reaches a.input i ∧ (a.graph.state i).label = some l) ∧
        (t.row l = .error (.unknownState l) ↔
          ∀ i, a.graph.Reaches a.input i → (a.graph.state i).label ≠ some l)) := by
  refine ⟨?_, fun l known => ?_⟩
  · have start : a.graph.Reaches a.input a.input := .refl _ _
    obtain ⟨l, label, -⟩ := Nfa.label_labelled start
    refine ⟨l, ?_, fun i => finds_iff_eq made start label⟩
    rw [startLabel, (exists_labelled_of_make made).1]
    exact Graph.label_eq_ok label
  · have label := label_of_acceptLabel made known
    refine ⟨fun reach i => finds_iff_eq made reach label, fun unreached => ?_⟩
    have finds (i : Nat) := finds_iff_preset made (i := i) unreached label
    refine ⟨finds, ?_⟩
    simp only [row_eq_error_iff made, finds, not_and, ne_eq]

end Made

end Tabulated

/-- Two states of one label, of which the second is the output and cannot be reached. -/
def Nfa.namesakes : Nfa where
  graph := (Graph.empty.add false (some (.name "p"))).add true (some (.name "p"))
  input := 0
  output := 1
  input_lt := by decide
  output_lt := by decide

namespace Tabulated

theorem exists_make_namesakes : ∃ t table, make ⟨.namesakes, none⟩ = (t, .ok table) ∧
    t.startLabel = .ok (.name "p") ∧ t.acceptLabel = .ok (.name "p") := by
  have distinct : firstRepeat? (Nfa.namesakes.labelled.states.map Nfa.namesakes.labelling) =
      none := by decide +kernel
  have labelled := (Nfa.labels_labelled _).labelled_of_firstRepeat? distinct
  have input : Nfa.namesakes.labelled.graph.label 0 = .ok (.name "p") :=
    Graph.label_eq_ok (by decide +kernel)
  have output : Nfa.namesakes.labelled.graph.label 1 = .ok (.name "p") :=
    Graph.label_eq_ok (by decide +kernel)
  have made := make_of_ok (t := ⟨.namesakes, none⟩) rfl (labelled.tabulate_eq_ok .closure)
  exact ⟨_, _, made, input, output⟩

theorem unreached_namesakes : ¬ Nfa.namesakes.graph.Reaches Nfa.namesakes.input
    Nfa.namesakes.output := by
  have states : Nfa.namesakes.states = [0] := by decide +kernel
  rw [← Nfa.mem_states, states]
  decide

theorem finds_ends_namesakes : ∃ t table, make ⟨.namesakes, none⟩ = (t, .ok table) ∧
    (t.row (.name "p") = .error (.unknownState (.name "p")) ↔
      ∀ i, Nfa.namesakes.graph.Reaches Nfa.namesakes.input i →
        (Nfa.namesakes.graph.state i).label ≠ some (.name "p")) := by
  obtain ⟨t, table, made, -, accept⟩ := exists_make_namesakes
  exact ⟨t, table, made, (((finds_ends made).2 _ accept).2 unreached_namesakes).2⟩

/-- The label of an output that cannot be reached is not always unknown. -/
theorem not_finds_ends : ¬ ∀ (a : Nfa) (t : Tabulated) (table : TransitionTable),
    make ⟨a, none⟩ = (t, .ok table) →
      (∃ l, t.startLabel = .ok l ∧ ∀ i, t.Finds l i ↔ i = a.input) ∧
      ∀ l, t.acceptLabel = .ok l →
        (a.graph.Reaches a.input a.output → ∀ i, t.Finds l i ↔ i = a.output) ∧
        (¬ a.graph.Reaches a.input a.output → t.row l = .error (.unknownState l)) ∧
        ∀ i, t.Finds l i → i = a.output := by
  intro findEnds
  obtain ⟨t, table, made, start, accept⟩ := exists_make_namesakes
  obtain ⟨⟨l, label, finds⟩, ends⟩ := findEnds .namesakes t table made
  obtain rfl := Except.ok.inj (label.symm.trans start)
  have other := (ends _ accept).2.2 Nfa.namesakes.input ((finds _).mpr rfl)
  exact absurd other (by decide)

end Tabulated

end FiniteAutomata
