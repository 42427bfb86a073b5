import FiniteAutomata.Proofs.Dfa.Powerset
import FiniteAutomata.Proofs.Nfa.Tables

/-!
The powerset table of an automaton, whose rows are named by the labels of their states. A word leads
from the first row to the row that is named by the labels of the states it can end in.
-/

namespace FiniteAutomata

theorem Graph.mem_labelSet {g : Graph} {s : StateSet} {l : Label} :
    l ∈ (g.labelSet s).elements ↔ ∃ i ∈ s.elements, (g.state i).label = some l := by
  rw [labelSet, SortedSet.mem_ofList, List.mem_filterMap]

namespace Nfa

variable {a : Nfa} {labelOf : Nat → Label} {s t : StateSet}

/-! ### When there is a table -/

theorem Labels.mem_labelSet (labels : a.Labels labelOf) (attained : a.Attained s) {l : Label} :
    l ∈ (a.graph.labelSet s).elements ↔ ∃ i ∈ s.elements, labelOf i = l := by
  rw [Graph.mem_labelSet]
  constructor
  · rintro ⟨i, hi, known⟩
    rw [labels i (attained.reached i hi)] at known
    exact ⟨i, hi, Option.some.inj known⟩
  · rintro ⟨i, hi, rfl⟩
    exact ⟨i, hi, labels i (attained.reached i hi)⟩

theorem Named.mem_texts (named : a.Named labelOf) (attained : a.Attained s) {text : String} :
    text ∈ (a.graph.labelSet s).elements.map Label.text ↔
      ∃ i ∈ s.elements, (labelOf i).text = text := by
  simp only [List.mem_map, named.label.mem_labelSet attained]
  constructor
  · rintro ⟨_, ⟨i, hi, rfl⟩, same⟩
    exact ⟨i, hi, same⟩
  · rintro ⟨i, hi, same⟩
    exact ⟨labelOf i, ⟨i, hi, rfl⟩, same⟩

/-- The texts of the labels can be read off the text of a set. -/
theorem Named.split_setText (named : a.Named labelOf) (attained : a.Attained s) :
    ((a.graph.setText s).split ',').toList.map (·.copy) =
      (a.graph.labelSet s).elements.map Label.text := by
  have plain : ∀ text ∈ (a.graph.labelSet s).elements.map Label.text, ',' ∉ text.toList := by
    intro text member
    obtain ⟨i, hi, rfl⟩ := (named.mem_texts attained).mp member
    exact named.noComma i (attained.reached i hi)
  have some : (a.graph.labelSet s).elements.map Label.text ≠ [] := by
    obtain ⟨i, hi⟩ := List.exists_mem_of_ne_nil _ attained.nonempty
    exact List.ne_nil_of_mem ((named.mem_texts attained).mpr ⟨i, hi, rfl⟩)
  have split := String.toList_split_intercalate plain
  rwa [if_neg some] at split

theorem Named.setText_inj (named : a.Named labelOf) (hs : a.Attained s) (ht : a.Attained t)
    (same : a.graph.setText s = a.graph.setText t) : s = t := by
  have texts : (a.graph.labelSet s).elements.map Label.text =
      (a.graph.labelSet t).elements.map Label.text := by
    rw [← named.split_setText hs, same, named.split_setText ht]
  apply hs.eq_of_keys ht named.distinct
  intro text
  rw [← named.mem_texts hs, texts, named.mem_texts ht]

theorem map_label_setRows (a : Nfa) (alphabet : List Char) (accept : Label) :
    (a.setRows alphabet accept).map (·.heading.label) =
      (a.sets alphabet).map a.graph.setText := by
  apply List.ext_getElem?
  intro i
  rw [List.getElem?_map, getElem?_setRows, List.getElem?_map, Option.map_map]
  rfl

theorem length_targets_setRows {accept : Label} {alphabet : List Char} {r : Dfa.Row}
    (member : r ∈ a.setRows alphabet accept) : r.targets.length = alphabet.length := by
  obtain ⟨i, row⟩ := List.mem_iff_getElem?.mp member
  rw [getElem?_setRows, Option.map_eq_some_iff] at row
  obtain ⟨s, -, rfl⟩ := row
  simp [rowAt, Graph.setRow, moves]

theorem exists_powerset_eq_ok {alphabet : List Char} (accept : Label)
    (distinct : ((a.sets alphabet).map a.graph.setText).Nodup) :
    ∃ d, a.powerset alphabet accept = .ok d := by
  rw [← map_label_setRows a alphabet accept] at distinct
  refine ⟨⟨alphabet, a.setRows alphabet accept, fun _ => length_targets_setRows, distinct⟩, ?_⟩
  rw [powerset_eq_ofRows, Dfa.ofRows_eq_ok_iff]
  exact ⟨rfl, rfl⟩

theorem Named.nodup_setTexts (named : a.Named labelOf) (alphabet : List Char) :
    ((a.sets alphabet).map a.graph.setText).Nodup :=
  (a.nodup_sets alphabet).map_on fun _ hs _ ht same =>
    named.setText_inj (a.attained_of_mem_sets hs) (a.attained_of_mem_sets ht) same

end Nfa

namespace Tabulated

variable {a : Nfa} {d : Dfa}

/-- A powerset table is that of the labelled automaton, for the label of its output. -/
theorem of_powerset_eq_ok (made : (Tabulated.powerset ⟨a, none⟩).2 = .ok d) :
    ∃ accept, (a.labelled.graph.state a.output).label = some accept ∧
      a.labelled.powerset a.labelled.alphabet accept = .ok d := by
  unfold powerset make acceptLabel Graph.label at made
  cases tabulated : a.labelled.tabulate .closure with
  | error e =>
    rw [tabulated] at made
    cases made
  | ok table =>
    rw [tabulated] at made
    dsimp only at made
    cases known : (a.labelled.graph.state a.labelled.output).label with
    | none =>
      rw [known] at made
      cases made
    | some accept =>
      rw [known] at made
      exact ⟨accept, known, Nfa.alphabet_of_tabulate_eq_ok tabulated ▸ made⟩

/-- Automata whose labels have different texts without commas have a powerset table, if their output
can be reached. -/
theorem powerset_eq_ok (plain : a.PlainLabels) (output : a.graph.Reaches a.input a.output) :
    ∃ table d, Tabulated.powerset ⟨a, none⟩ = (⟨a.labelled, some table⟩, .ok d) := by
  have named := Nfa.named_labelled plain
  have accept := named.label.label_eq_ok (Nfa.reaches_labelled.mpr output)
  obtain ⟨d, made⟩ := Nfa.exists_powerset_eq_ok (a.labelling a.output)
    (named.nodup_setTexts a.labelled.alphabet)
  obtain ⟨table, tabulated⟩ : ∃ table, a.labelled.tabulate .closure = .ok table :=
    ⟨_, named.labelled.tabulate_eq_ok .closure⟩
  refine ⟨table, d, ?_⟩
  unfold powerset make acceptLabel
  rw [tabulated]
  dsimp only
  rw [show a.labelled.graph.label a.labelled.output = _ from accept]
  dsimp only [bind, Except.bind, pure, Except.pure]
  rw [Nfa.alphabet_of_tabulate_eq_ok tabulated, made]

/-- Labels that are given first are those that would be given on the way. -/
theorem powerset_labelled (a : Nfa) :
    Tabulated.powerset ⟨a.labelled, none⟩ = Tabulated.powerset ⟨a, none⟩ := by
  rw [Tabulated.powerset, Tabulated.powerset, Nfa.make_labelled]

/-- The labels of the states that a word can lead to, as a set. -/
structure LabelsAfter (a : Nfa) (w : List Char) (labels : LabelSet) : Prop where
  increasing : SortedSet.Increasing labels.elements
  mem_iff : ∀ l, l ∈ labels.elements ↔
    ∃ j, a.graph.Run a.input w j ∧ (a.labelled.graph.state j).label = some l
  labelled : ∀ j, a.graph.Run a.input w j → ∃ l, (a.labelled.graph.state j).label = some l

/-- A word leads from the first row to no row if no run spells it, and else to the row named by the
labels of the states at the ends of these runs. -/
theorem follow_powerset (made : (Tabulated.powerset ⟨a, none⟩).2 = .ok d) (w : List Char) :
    d.start? = some 0 ∧
      (d.follow 0 w = none ↔ ∀ j, ¬ a.graph.Run a.input w j) ∧
      ∀ m, d.follow 0 w = some m → ∃ r accept labels, d.rows[m]? = some r ∧
        (a.labelled.graph.state a.output).label = some accept ∧ LabelsAfter a w labels ∧
        r.heading.label = labels.text ∧ (r.heading.accepts ↔ accept ∈ labels.elements) := by
  obtain ⟨accept, known, made⟩ := of_powerset_eq_ok made
  have ends := Nfa.endsAt_follow made a.labelled.covers_alphabet w
  refine ⟨(Nfa.startsAt_powerset made).start?_eq, ?_, ?_⟩
  · cases followed : d.follow 0 w with
    | none =>
      rw [followed] at ends
      exact ⟨fun _ k run => ends k (Nfa.run_labelled.mpr run), fun _ => rfl⟩
    | some m =>
      rw [followed] at ends
      obtain ⟨t, set, members⟩ := ends
      have attained := a.labelled.attained_of_mem_sets (List.mem_of_getElem? set)
      obtain ⟨k, hk⟩ := List.exists_mem_of_ne_nil _ attained.nonempty
      refine ⟨fun no => (Option.some_ne_none m no).elim, fun none => ?_⟩
      exact absurd (Nfa.run_labelled.mp ((members k).mp hk)) (none k)
  · intro m followed
    rw [followed] at ends
    obtain ⟨t, set, members⟩ := ends
    have reached (k : Nat) : k ∈ t.elements ↔ a.graph.Run a.input w k :=
      (members k).trans Nfa.run_labelled
    have row := Nfa.getElem?_powerset made m
    rw [set, Option.map_some] at row
    refine ⟨_, accept, a.labelled.graph.labelSet t, row, known, ⟨?_, ?_, ?_⟩, rfl, ?_⟩
    · exact SortedSet.increasing_ofList _
    · intro l
      rw [Graph.mem_labelSet]
      simp only [reached]
    · intro j run
      obtain ⟨l, known, -⟩ := Nfa.label_labelled run.reaches
      exact ⟨l, known⟩
    · rw [Graph.mem_labelSet]
      show t.elements.any _ = true ↔ _
      rw [List.any_eq_true]
      simp only [decide_eq_true_eq]

/-- Words of two or more characters, the last of them `b`. The second state is reached without reading,
and of the labels, two of which are given, one is the number that the third state would get. -/
def lastB : Nfa where
  graph :=
    let first := (Graph.empty.add false (some (.name "s"))).add false
    let states := ((first.add false (some (.number 2))).add true).add false
    let loops := (states.withEdge 0 (.char 'a') 0).withEdge 0 (.char 'b') 0
    let ways := ((loops.withEdge 0 .epsilon 1).withEdge 1 (.char 'a') 2).withEdge 1 (.char 'b') 4
    (ways.withEdge 2 (.char 'b') 3).withEdge 4 (.char 'b') 3
  input := 0
  output := 3
  input_lt := by decide
  output_lt := by decide

theorem plainLabels_lastB : lastB.PlainLabels where
  distinct i j l m hi hj first second same := by
    have texts : ∀ i < 5, ∀ j < 5, (lastB.graph.state i).label.map Label.text =
        (lastB.graph.state j).label.map Label.text → i = j ∨ (lastB.graph.state i).label = none := by
      decide +kernel
    rcases texts i (hi.lt_size (by decide)) j (hj.lt_size (by decide))
      (by rw [first, second, Option.map_some, Option.map_some, same]) with equal | none
    · exact equal
    · cases none.symm.trans first
  noComma i l hi known := by
    have texts : ∀ i < 5, (lastB.graph.state i).label.all (',' ∉ ·.text.toList) := by
      decide +kernel
    have plain := texts i (hi.lt_size (by decide))
    rw [known] at plain
    exact of_decide_eq_true plain

theorem reaches_lastB : ∀ i < 5, lastB.graph.Reaches i lastB.output := by
  have reached : ∀ i < 5, lastB.output ∈ lastB.graph.reachable i := by decide +kernel
  exact fun i lt => (Graph.mem_reachable.mp (reached i lt)).2

/-- The same automaton with the labels that it is given: the number of the third state is left out. -/
def lastBNumbered : Nfa where
  graph := lastB.graph.withNumbers [1, 3, 4] [1, 3, 4]
  input := 0
  output := 3
  input_lt := by decide +kernel
  output_lt := by decide +kernel

theorem labelled_lastB : lastB.labelled = lastBNumbered := by
  have unlabelled : lastB.unlabelled = [1, 3, 4] := by decide +kernel
  have texts : lastB.graph.labelTexts = ["s", "2"] := by decide +kernel
  have numbers : freeNumbers ["s", "2"] 0 3 = [1, 3, 4] := by cbv
  refine Nfa.ext ?_ rfl rfl
  rw [Nfa.graph_labelled, unlabelled, texts]
  exact congrArg _ numbers

theorem table_lastB : (Tabulated.powerset ⟨lastB, none⟩).2.toOption.map
    (fun d => (d.rows, d.follow 0 ['a', 'b'])) = some ([
      ⟨⟨"1,s", true, false⟩, [some "1,4,s", some "1,2,s"]⟩,
      ⟨⟨"1,4,s", false, false⟩, [some "1,3,4,s", some "1,2,s"]⟩,
      ⟨⟨"1,2,s", false, false⟩, [some "1,3,4,s", some "1,2,s"]⟩,
      ⟨⟨"1,3,4,s", false, true⟩, [some "1,3,4,s", some "1,2,s"]⟩], some 3) := by
  rw [← powerset_labelled, labelled_lastB]
  decide +kernel

theorem follow_powerset_lastB : ∃ d, (Tabulated.powerset ⟨lastB, none⟩).2 = .ok d ∧
    d.start? = some 0 ∧ d.follow 0 ['a', 'b'] = some 3 ∧ ∃ r accept labels,
      d.rows[3]? = some r ∧ r.heading.label = "1,3,4,s" ∧
      (lastB.labelled.graph.state lastB.output).label = some accept ∧
      LabelsAfter lastB ['a', 'b'] labels ∧ r.heading.label = labels.text ∧
      (r.heading.accepts ↔ accept ∈ labels.elements) := by
  obtain ⟨table, d, made⟩ := powerset_eq_ok plainLabels_lastB (reaches_lastB 0 (by decide))
  have made := congrArg Prod.snd made
  have entries := table_lastB
  rw [made] at entries
  obtain ⟨rows, followed⟩ := Prod.mk.inj (Option.some.inj entries)
  obtain ⟨start, -, ends⟩ := follow_powerset made ['a', 'b']
  obtain ⟨r, accept, labels, row, rest⟩ := ends 3 followed
  have name : r.heading.label = "1,3,4,s" := by
    rw [rows] at row
    exact Option.some.inj row ▸ rfl
  exact ⟨d, made, start, followed, r, accept, labels, row, name, rest⟩

end Tabulated

end FiniteAutomata
