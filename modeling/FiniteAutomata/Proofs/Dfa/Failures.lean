import FiniteAutomata.Proofs.Dfa.Minimality
import FiniteAutomata.Proofs.Dfa.Worklist

/-!
The errors of the powerset construction. There are three, checked one after the other: two reachable
states with one label, an output that was given no label, and two sets of labels with one text.
-/

namespace FiniteAutomata

/-! ### First repetitions -/

section FirstRepeat

variable {α β : Type} [Ord α] [Std.TransOrd α] [Std.LawfulEqOrd α] {f : β → α} {xs : List β} {y : α}

/-- The first repeated value of a function on distinct arguments is that of two of them. -/
theorem exists_of_firstRepeat? (distinct : xs.Nodup) (repeated : firstRepeat? (xs.map f) = some y) :
    ∃ x ∈ xs, ∃ x' ∈ xs, x ≠ x' ∧ f x = y ∧ f x' = y := by
  obtain ⟨before, after, split, -, met⟩ := firstRepeat?_eq_some repeated
  obtain ⟨front, back, rfl, rfl, values⟩ := List.map_eq_append_iff.mp split
  obtain ⟨x, back, rfl, value, -⟩ := List.map_eq_cons_iff.mp values
  obtain ⟨x', member', value'⟩ := List.mem_map.mp met
  refine ⟨x, by simp, x', by simp [member'], ?_, value, value'⟩
  rintro rfl
  exact (List.nodup_append.mp distinct).2.2 x member' x List.mem_cons_self rfl

end FirstRepeat

namespace Dfa

variable {alphabet : List Char} {rows : List Row}

theorem rowError?_of_width {width : Nat} {seen : Std.TreeSet String}
    (right : ∀ r ∈ rows, r.targets.length = width) : rowError? width seen rows =
      (firstRepeatAfter? seen (rows.map (·.heading.label))).map .duplicateState := by
  induction rows generalizing seen with
  | nil => rfl
  | cons r rows ih =>
    obtain ⟨first, rest⟩ := List.forall_mem_cons.mp right
    rw [rowError?, List.map_cons, firstRepeatAfter?, if_neg (Decidable.not_not.mpr first), ih rest]
    split <;> rfl

theorem ofRows_of_firstRepeat? (right : ∀ r ∈ rows, r.targets.length = alphabet.length)
    {text : String} (repeated : firstRepeat? (rows.map (·.heading.label)) = some text) :
    ofRows alphabet rows = .error (.duplicateState text) := by
  apply ofRows_of_rowError
  rw [rowError?_of_width right]
  exact congrArg (Option.map TableError.duplicateState) repeated

end Dfa

namespace Nfa

variable {a : Nfa} {s t : StateSet} {c : Char} {i j k : Nat} {w alphabet : List Char}

/-! ### States with one label -/

/-- Labelling shares no label that was not shared before. -/
theorem sharedLabel_of_labelling (ne : i ≠ j) (hi : a.graph.Reaches a.input i)
    (hj : a.graph.Reaches a.input j) {l : Label} (first : a.labelling i = l)
    (second : a.labelling j = l) : a.SharedLabel l := by
  have labels := a.labels_labelled
  have preset := preset_of_text_eq ne (labels i (reaches_labelled.mpr hi))
    (labels j (reaches_labelled.mpr hj)) (congrArg Label.text (first.trans second.symm))
  rw [first, second] at preset
  exact ⟨i, j, ne, hi, hj, preset⟩

theorem labelling_of_label {l : Label} (known : (a.graph.state i).label = some l) :
    a.labelling i = l := by
  have other : i ∉ a.unlabelled := by
    intro member
    rw [(mem_unlabelled.mp member).2] at known
    cases known
  rw [labelling, label_labelled_of_not_mem other, known, Option.getD_some]

theorem labelled_of_not_sharedLabel (unshared : ¬ ∃ l, a.SharedLabel l) :
    a.labelled.Labelled a.labelling := by
  refine ⟨a.labels_labelled, fun i j hi hj same => ?_⟩
  by_contra ne
  exact unshared ⟨_, sharedLabel_of_labelling ne (reaches_labelled.mp hi) (reaches_labelled.mp hj)
    rfl same.symm⟩

/-- If labels are shared, making the table fails on one of them. -/
theorem exists_tabulate_eq_error (shared : ∃ l, a.SharedLabel l) (kind : EpsilonColumn) :
    ∃ l, a.SharedLabel l ∧ a.labelled.tabulate kind = .error (.duplicateLabel l) := by
  have tabulated := a.labels_labelled.tabulate_eq kind
  cases repeated : firstRepeat? (a.labelled.states.map a.labelling) with
  | some l =>
    rw [repeated] at tabulated
    obtain ⟨i, hi, j, hj, ne, first, second⟩ :=
      exists_of_firstRepeat? a.labelled.nodup_states repeated
    exact ⟨l, sharedLabel_of_labelling ne (reaches_labelled.mp (mem_states.mp hi))
      (reaches_labelled.mp (mem_states.mp hj)) first second, tabulated⟩
  | none =>
    obtain ⟨l, i, j, ne, hi, hj, first, second⟩ := shared
    have same := (labelling_of_label first).trans (labelling_of_label second).symm
    have labelled := a.labels_labelled.labelled_of_firstRepeat? repeated
    exact absurd (labelled.inj i j (reaches_labelled.mpr hi) (reaches_labelled.mpr hj) same) ne

/-! ### The output -/

/-- The output has no label and is not given one, as it cannot be reached. -/
def NamelessOutput (a : Nfa) : Prop :=
  ¬ a.graph.Reaches a.input a.output ∧ (a.graph.state a.output).label = none

theorem NamelessOutput.label_eq (nameless : a.NamelessOutput) :
    a.labelled.graph.label a.output = .error (.missingLabel a.output) := by
  have other : a.output ∉ a.unlabelled := fun member => nameless.1 (mem_unlabelled.mp member).1
  exact Graph.label_eq_error ((label_labelled_of_not_mem other).trans nameless.2)

theorem exists_label_output (named : ¬ a.NamelessOutput) :
    ∃ accept, a.labelled.graph.label a.output = .ok accept := by
  cases known : (a.labelled.graph.state a.output).label with
  | some accept => exact ⟨accept, Graph.label_eq_ok known⟩
  | none =>
    have unreached : ¬ a.graph.Reaches a.input a.output := by
      intro reach
      obtain ⟨label, known', -⟩ := label_labelled reach
      cases known.symm.trans known'
    have other : a.output ∉ a.unlabelled := fun member => unreached (mem_unlabelled.mp member).1
    exact absurd ⟨unreached, (label_labelled_of_not_mem other).symm.trans known⟩ named

/-! ### Sets with one text -/

/-- The set holds the states that a word leads to. -/
def After (a : Nfa) (w : List Char) (s : StateSet) : Prop :=
  ∀ k, k ∈ s.elements ↔ a.graph.Run a.input w k

theorem run_concat_iff :
    a.graph.Run a.input (w ++ [c]) k ↔ k ∈ a.graph.read (a.graph.after a.input w) c := by
  have last : a.graph.after a.input (w ++ [c]) = a.graph.read (a.graph.after a.input w) c := by
    rw [Graph.after, List.foldl_append]
    rfl
  rw [← last, Graph.mem_after]
  simp only [a.input_lt, true_and]

theorem After.mem_read (after : a.After w s) :
    k ∈ a.graph.read s.elements c ↔ a.graph.Run a.input (w ++ [c]) k := by
  rw [run_concat_iff, Graph.mem_read, Graph.mem_read]
  simp only [after _, Graph.mem_after, a.input_lt, true_and]

theorem After.move (after : a.After w s) (moved : a.graph.move s c = some t) :
    a.After (w ++ [c]) t :=
  fun _ => (Graph.mem_move moved).trans after.mem_read

/-- Every set of the construction holds the states that some word leads to. -/
theorem exists_after : ∀ s ∈ a.sets alphabet, ∃ w, a.After w s := by
  apply sets_induction
  · exact ⟨[], fun _ => mem_startSet⟩
  · rintro s t c ⟨w, after⟩ - moved
    exact ⟨w ++ [c], after.move moved⟩

/-- The states that a word leads to, if there are any, are a set of the construction. -/
theorem Covers.exists_mem_sets (covers : a.Covers alphabet) (run : a.graph.Run a.input w k) :
    ∃ s ∈ a.sets alphabet, a.After w s := by
  -- The last character is taken off, as a set of the construction is left by one character.
  induction w using List.reverseRecOn generalizing k with
  | nil => exact ⟨a.startSet, List.mem_of_getElem? (a.sets_zero alphabet), fun _ => mem_startSet⟩
  | append_singleton w c ih =>
    obtain ⟨j, hj, -⟩ := Graph.mem_read.mp (run_concat_iff.mp run)
    obtain ⟨s, member, after⟩ := ih (Graph.mem_after.mp hj).2
    have reached : k ∈ a.graph.read s.elements c := after.mem_read.mpr run
    cases moved : a.graph.move s c with
    | none =>
      rw [Graph.move_eq_none_iff.mp moved] at reached
      cases reached
    | some t =>
      have letter := covers.of_move (attained_of_mem_sets member) moved
      exact ⟨t, mem_sets_of_move member letter moved, after.move moved⟩

end Nfa

namespace Tabulated

variable {a : Nfa} {labels : LabelSet} {s : StateSet} {w : List Char}

/-- The set holds the labels of the states that some word leads to. A word that leads to no state
reaches no set. -/
def ReachedSet (a : Nfa) (labels : LabelSet) : Prop :=
  ∃ w, LabelsAfter a w labels ∧ ∃ j, a.graph.Run a.input w j

def SharedText (a : Nfa) (text : String) : Prop :=
  ∃ S T, S ≠ T ∧ ReachedSet a S ∧ ReachedSet a T ∧ S.text = text ∧ T.text = text

theorem labelsAfter_iff (after : a.labelled.After w s) :
    LabelsAfter a w labels ↔ labels = a.labelled.graph.labelSet s := by
  have mem_iff (l : Label) : l ∈ (a.labelled.graph.labelSet s).elements ↔
      ∃ j, a.graph.Run a.input w j ∧ (a.labelled.graph.state j).label = some l := by
    rw [Graph.mem_labelSet]
    simp only [after _, Nfa.run_labelled]
    rfl
  constructor
  · rintro ⟨increasing, members, -⟩
    refine congrArg SortedSet.mk (increasing.eq_of_mem_iff (SortedSet.increasing_ofList _) ?_)
    exact fun l => (members l).trans (mem_iff l).symm
  · rintro rfl
    refine ⟨SortedSet.increasing_ofList _, mem_iff, fun j run => ?_⟩
    obtain ⟨l, known, -⟩ := Nfa.label_labelled run.reaches
    exact ⟨l, known⟩

/-- The sets of labels that words reach are those of the construction. -/
theorem reachedSet_iff : ReachedSet a labels ↔
    ∃ s ∈ a.labelled.sets a.labelled.alphabet, a.labelled.graph.labelSet s = labels := by
  constructor
  · rintro ⟨w, labelsAfter, j, run⟩
    obtain ⟨s, member, after⟩ :=
      a.labelled.covers_alphabet.exists_mem_sets (Nfa.run_labelled.mpr run)
    exact ⟨s, member, ((labelsAfter_iff after).mp labelsAfter).symm⟩
  · rintro ⟨s, member, rfl⟩
    obtain ⟨w, after⟩ := Nfa.exists_after s member
    obtain ⟨j, hj⟩ := List.exists_mem_of_ne_nil _ (Nfa.attained_of_mem_sets member).nonempty
    exact ⟨w, (labelsAfter_iff after).mpr rfl, j, Nfa.run_labelled.mp ((after j).mp hj)⟩

/-- Two sets share the first text that is repeated, as sets of the construction have different
labels. -/
theorem sharedText_of_firstRepeat? (labelled : a.labelled.Labelled a.labelling) {text : String}
    (repeated : firstRepeat? ((a.labelled.sets a.labelled.alphabet).map a.labelled.graph.setText) =
      some text) : SharedText a text := by
  obtain ⟨s, hs, t, ht, ne, first, second⟩ :=
    exists_of_firstRepeat? (Nfa.nodup_sets ..) repeated
  refine ⟨a.labelled.graph.labelSet s, a.labelled.graph.labelSet t, fun same => ne ?_,
    reachedSet_iff.mpr ⟨s, hs, rfl⟩, reachedSet_iff.mpr ⟨t, ht, rfl⟩, first, second⟩
  exact labelled.labelSet_inj s t (Nfa.attained_of_mem_sets hs) (Nfa.attained_of_mem_sets ht) same

theorem not_nodup_of_sharedText {text : String} (shared : SharedText a text) :
    ¬ ((a.labelled.sets a.labelled.alphabet).map a.labelled.graph.setText).Nodup := by
  intro distinct
  obtain ⟨S, T, ne, hS, hT, first, second⟩ := shared
  obtain ⟨s, hs, rfl⟩ := reachedSet_iff.mp hS
  obtain ⟨t, ht, rfl⟩ := reachedSet_iff.mp hT
  have same := List.inj_on_of_nodup_map distinct hs ht (first.trans second.symm)
  exact ne (congrArg _ same)

/-! ### Outcomes -/

theorem powerset_of_sharedLabel (shared : ∃ l, a.SharedLabel l) : ∃ l, a.SharedLabel l ∧
    (powerset ⟨a, none⟩).2 = .error (.automaton (.duplicateLabel l)) := by
  obtain ⟨l, shared, failed⟩ := Nfa.exists_tabulate_eq_error shared .closure
  refine ⟨l, shared, ?_⟩
  rw [powerset, make_of_error (t := ⟨a, none⟩) rfl failed]
  rfl

section Unshared

variable (labelled : a.labelled.Labelled a.labelling)
include labelled

theorem powerset_of_labelled : (powerset ⟨a, none⟩).2 =
    ((a.labelled.graph.label a.output).mapError .automaton).bind
      (a.labelled.powerset a.labelled.alphabet) := by
  have tabulated := labelled.tabulate_eq_ok .closure
  show _ = ((a.labelled.graph.label a.labelled.output).mapError TableError.automaton).bind _
  rw [powerset, make_of_ok (t := ⟨a, none⟩) rfl tabulated]
  dsimp only [acceptLabel]
  cases a.labelled.graph.label a.labelled.output <;> rfl

theorem powerset_of_namelessOutput (nameless : a.NamelessOutput) :
    (powerset ⟨a, none⟩).2 = .error (.automaton (.missingLabel a.output)) := by
  rw [powerset_of_labelled labelled, nameless.label_eq]
  rfl

theorem powerset_of_sharedText (named : ¬ a.NamelessOutput) (shared : ∃ text, SharedText a text) :
    ∃ text, SharedText a text ∧ (powerset ⟨a, none⟩).2 = .error (.duplicateState text) := by
  obtain ⟨accept, known⟩ := Nfa.exists_label_output named
  rw [powerset_of_labelled labelled, known]
  cases repeated :
      firstRepeat? ((a.labelled.sets a.labelled.alphabet).map a.labelled.graph.setText) with
  | none =>
    obtain ⟨text, shared⟩ := shared
    exact absurd (firstRepeat?_eq_none.mp repeated) (not_nodup_of_sharedText shared)
  | some text =>
    refine ⟨text, sharedText_of_firstRepeat? labelled repeated, ?_⟩
    rw [← Nfa.map_label_setRows _ _ accept] at repeated
    show a.labelled.powerset a.labelled.alphabet accept = _
    rw [Nfa.powerset_eq_ofRows]
    exact Dfa.ofRows_of_firstRepeat? (fun _ => Nfa.length_targets_setRows) repeated

theorem exists_powerset_of_named (named : ¬ a.NamelessOutput)
    (unshared : ¬ ∃ text, SharedText a text) : ∃ d, (powerset ⟨a, none⟩).2 = .ok d := by
  obtain ⟨accept, known⟩ := Nfa.exists_label_output named
  rw [powerset_of_labelled labelled, known]
  apply Nfa.exists_powerset_eq_ok accept
  rw [← firstRepeat?_eq_none, Option.eq_none_iff_forall_ne_some]
  exact fun text repeated => unshared ⟨text, sharedText_of_firstRepeat? labelled repeated⟩

end Unshared

/-- The construction ends for every automaton, in the first of these errors that there is a reason
for, or in a table if there is none. -/
theorem powerset_outcome (a : Nfa) : ∃ r, (∀ r', Constructs ⟨a, none⟩ r' ↔ r' = r) ∧
    (powerset ⟨a, none⟩).2 = r ∧
    ((∃ l, r = .error (.automaton (.duplicateLabel l))) ↔ ∃ l, a.SharedLabel l) ∧
    ((¬ ∃ l, a.SharedLabel l) →
      (r = .error (.automaton (.missingLabel a.output)) ↔ a.NamelessOutput)) ∧
    ((¬ ∃ l, a.SharedLabel l) → ¬ a.NamelessOutput →
      ((∃ text, r = .error (.duplicateState text)) ↔ ∃ text, SharedText a text)) ∧
    ((¬ ∃ l, a.SharedLabel l) → ¬ a.NamelessOutput → (¬ ∃ text, SharedText a text) →
      ∃ d, r = .ok d) ∧
    ∀ e, r = .error e → (∃ l, e = .automaton (.duplicateLabel l) ∧ a.SharedLabel l) ∨
      e = .automaton (.missingLabel a.output) ∨
      ∃ text, e = .duplicateState text ∧ SharedText a text := by
  refine ⟨_, fun r' => constructs_iff, rfl, ?_⟩
  by_cases shared : ∃ l, a.SharedLabel l
  · obtain ⟨l, named, outcome⟩ := powerset_of_sharedLabel shared
    rw [outcome]
    simp [shared, named]
  · have labelled := Nfa.labelled_of_not_sharedLabel shared
    by_cases nameless : a.NamelessOutput
    · rw [powerset_of_namelessOutput labelled nameless]
      simp [shared, nameless]
    · by_cases texts : ∃ text, SharedText a text
      · obtain ⟨text, named, outcome⟩ := powerset_of_sharedText labelled nameless texts
        rw [outcome]
        simp [shared, nameless, texts, named]
      · obtain ⟨d, outcome⟩ := exists_powerset_of_named labelled nameless texts
        rw [outcome]
        simp [shared, nameless, texts]

end Tabulated

end FiniteAutomata
