import FiniteAutomata.Proofs.Dfa.ClosureTable
import FiniteAutomata.Proofs.Dfa.Requests

/-!
The subset construction round by round. A round takes a set of labels off the queue, looks up in the
closure table what it leads to, and adds its row. A lookup can fail, a row can be refused, and no
bound is put on the number of rounds; but no lookup fails, and the rounds come to an end with the
outcome of `Tabulated.powerset` (`Tabulated.constructs_iff`).
-/

namespace FiniteAutomata

/-- The construction between two rounds: the sets met, those of them to be expanded, and the rows of
the others. -/
structure Worklist where
  known : Std.TreeSet LabelSet
  queue : List LabelSet
  table : Dfa

namespace Tabulated

/-- Expands a set that was taken off the queue and adds its row. The first row is the starting one. -/
def round (t : Tabulated) (accept : Label) (s : LabelSet) (w : Worklist) :
    Except TableError Worklist := do
  let reached ← (t.moves w.table.alphabet s).mapError .automaton
  let (fresh, known) := Search.discover w.known (reached.filterMap id)
  let r := LabelSet.row accept s reached
  let table ← w.table.addRow { r with heading.starts := decide (w.table.size = 0) }
  return ⟨known, w.queue ++ fresh, table⟩

/-- What comes of a worklist when there is a round for every set that joins the queue. -/
inductive Ends (t : Tabulated) (accept : Label) : Worklist → Except TableError Dfa → Prop where
  | done (known : Std.TreeSet LabelSet) (table : Dfa) : Ends t accept ⟨known, [], table⟩ (.ok table)
  | failed {known : Std.TreeSet LabelSet} {s : LabelSet} {queue : List LabelSet} {table : Dfa}
      {e : TableError} (wrong : t.round accept s ⟨known, queue, table⟩ = .error e) :
      Ends t accept ⟨known, s :: queue, table⟩ (.error e)
  | next {known : Std.TreeSet LabelSet} {s : LabelSet} {queue : List LabelSet} {table : Dfa}
      {w : Worklist} {r : Except TableError Dfa}
      (right : t.round accept s ⟨known, queue, table⟩ = .ok w) (rest : Ends t accept w r) :
      Ends t accept ⟨known, s :: queue, table⟩ r

/-- What is looked up before the first round: the label of the output and the first set. -/
def opening (t : Tabulated) : Except AutomatonError (Label × Worklist) := do
  let alphabet := (← t.table).alphabet
  let accept ← t.acceptLabel
  let initial : LabelSet := .ofList (← t.startClosure)
  return (accept, ⟨Std.TreeSet.empty.insert initial, [initial], .empty alphabet⟩)

/-- What comes of making the table and then going through all rounds. -/
def Constructs (t : Tabulated) (r : Except TableError Dfa) : Prop :=
  match t.make.2.bind fun _ => t.make.1.opening with
  | .error e => r = .error (.automaton e)
  | .ok (accept, w) => t.make.1.Ends accept w r

variable {t : Tabulated} {accept : Label} {w : Worklist} {r r' : Except TableError Dfa}

theorem Ends.unique (ends : t.Ends accept w r) (ends' : t.Ends accept w r') : r = r' := by
  induction ends with
  | done => cases ends'; rfl
  | failed wrong =>
    cases ends' with
    | failed wrong' => exact congrArg Except.error (Except.error.inj (wrong.symm.trans wrong'))
    | next right => cases wrong.symm.trans right
  | next right rest ih =>
    cases ends' with
    | failed wrong => cases right.symm.trans wrong
    | next right' rest' =>
      obtain rfl := Except.ok.inj (right.symm.trans right')
      exact ih rest'

theorem Constructs.unique (constructs : t.Constructs r) (constructs' : t.Constructs r') :
    r = r' := by
  unfold Constructs at constructs constructs'
  cases first : t.make.2.bind fun _ => t.make.1.opening with
  | error e =>
    rw [first] at constructs constructs'
    exact constructs.trans constructs'.symm
  | ok result =>
    rw [first] at constructs constructs'
    exact constructs.unique constructs'

end Tabulated

namespace Dfa

/-- Rows that are still to be added to a table. The first one starts if the table has none. -/
def startAfter (d : Dfa) (rows : List Row) : List Row :=
  if d.size = 0 then startFirst rows else rows

theorem startAfter_nil (d : Dfa) : d.startAfter [] = [] := by
  rw [startAfter, startFirst, ite_self]

theorem startAfter_cons (d : Dfa) {r : Row} (plain : r.heading.starts = false) (rows : List Row) :
    d.startAfter (r :: rows) = { r with heading.starts := decide (d.size = 0) } :: rows := by
  unfold startAfter startFirst
  split
  · next none => rw [decide_eq_true none]
  · next some => rw [decide_eq_false some, ← plain]

theorem startAfter_of_addRow {d e : Dfa} {r : Row} (added : d.addRow r = .ok e) (rows : List Row) :
    e.startAfter rows = rows := by
  have some : e.size ≠ 0 := by
    rw [size, (addRow_eq_ok added).2, List.length_append, List.length_singleton]
    exact Nat.succ_ne_zero _
  rw [startAfter, if_neg some]

end Dfa

namespace Nfa

variable {a : Nfa} {labelOf : Nat → Label}

section Rounds

variable (labelled : a.Labelled labelOf)
include labelled

/-- A round finds every row that it looks up; only the new row can be refused. -/
theorem Labelled.round_eq (accept : Label) (names : Std.TreeSet LabelSet) (queue : List LabelSet)
    {s : StateSet} (attained : a.Attained s) {table : Dfa}
    (alphabet : table.alphabet = a.alphabet) :
    Tabulated.round ⟨a, some (a.closureTable labelOf)⟩ accept (a.graph.labelSet s)
        ⟨names, queue, table⟩ =
      (table.addRow (a.rowAt a.alphabet accept table.size s)).bind fun table =>
        let met := Search.discover names
          (((a.moves a.alphabet s).map (Option.map a.graph.labelSet)).filterMap id)
        .ok ⟨met.2, queue ++ met.1, table⟩ := by
  rw [Tabulated.round, alphabet, labelled.moves_labelSet attained]
  show ((table.addRow { LabelSet.row accept (a.graph.labelSet s)
    ((a.moves a.alphabet s).map (Option.map a.graph.labelSet)) with
      heading.starts := decide (table.size = 0) }).bind _) = _
  rw [LabelSet.row_labelSet]
  rfl

/-- The rounds that are left add the rows of the sets that a search has still to expand. There are
no more of them than sets that words can lead to, so the rounds end. -/
theorem Labelled.ends_expand (accept : Label) (rounds : Nat) (table : Dfa)
    {done queue : List StateSet} {known : Std.TreeSet StateSet} {names : Std.TreeSet LabelSet}
    (progress : Search.Progress a.Attained done known queue)
    (bound : Search.AtMost a.Attained (done.length + rounds))
    (same : Search.KnownAs a.Attained a.graph.labelSet known names)
    (alphabet : table.alphabet = a.alphabet) :
    Tabulated.Ends ⟨a, some (a.closureTable labelOf)⟩ accept
      ⟨names, queue.map a.graph.labelSet, table⟩
      ((table.startAfter ((Search.expand (a.moves a.alphabet) rounds known queue).map
        fun (s, reached) => a.graph.setRow accept s reached)).foldlM Dfa.addRow table) := by
  have keeps : ∀ s, a.Attained s → ∀ t, some t ∈ a.moves a.alphabet s → a.Attained t :=
    fun _ attained _ member => attained.of_mem_moves member
  induction rounds generalizing done known queue names table with
  | zero =>
    have full := bound _ progress.distinct progress.valid
    rw [List.length_append] at full
    obtain rfl : queue = [] := List.eq_nil_of_length_eq_zero (by omega)
    rw [Search.expand, List.map_nil, List.map_nil, Dfa.startAfter_nil]
    exact .done names table
  | succ rounds ih =>
    cases queue with
    | nil =>
      rw [Search.expand, List.map_nil, List.map_nil, Dfa.startAfter_nil]
      exact .done names table
    | cons s queue =>
      have attained := progress.valid s (by simp)
      have round := labelled.round_eq accept names (queue.map a.graph.labelSet) attained alphabet
      rw [Search.expand]
      dsimp only
      rw [List.map_cons, List.map_cons, Dfa.startAfter_cons _ rfl, List.foldlM_cons]
      show Tabulated.Ends _ accept _
        ((table.addRow (a.rowAt a.alphabet accept table.size s)).bind fun table => _)
      cases added : table.addRow (a.rowAt a.alphabet accept table.size s) with
      | error e =>
        rw [added] at round
        exact .failed round
      | ok table' =>
        rw [added] at round
        obtain ⟨fresh, known'⟩ :=
          Search.discover_successors labelled.labelSet_inj keeps same attained
        have enough : Search.AtMost a.Attained ((done ++ [s]).length + rounds) := by
          rw [List.length_append, List.length_singleton, Nat.add_assoc, Nat.add_comm 1]
          exact bound
        have rest := ih table' (progress.step keeps) enough known'
          ((Dfa.addRow_eq_ok added).1.trans alphabet)
        rw [List.map_append, ← fresh, Dfa.startAfter_of_addRow added] at rest
        exact .next round rest

theorem Labelled.ends_powerset (accept : Label) :
    Tabulated.Ends ⟨a, some (a.closureTable labelOf)⟩ accept
      ⟨Std.TreeSet.empty.insert (a.graph.labelSet a.startSet), [a.graph.labelSet a.startSet],
        .empty a.alphabet⟩ (a.powerset a.alphabet accept) := by
  have ends := labelled.ends_expand accept (Nat.pow 2 a.graph.size) (.empty a.alphabet)
    (Search.progress_start a.attained_startSet) (by simpa using a.atMost_attained)
    (.start labelled.labelSet_inj a.attained_startSet) rfl
  rw [powerset_eq_ofRows, Dfa.ofRows_eq_foldlM]
  exact ends

theorem Labelled.opening_eq : Tabulated.opening ⟨a, some (a.closureTable labelOf)⟩ =
    (a.graph.label a.output).map fun accept => (accept,
      ⟨Std.TreeSet.empty.insert (a.graph.labelSet a.startSet), [a.graph.labelSet a.startSet],
        .empty a.alphabet⟩) := by
  rw [Tabulated.opening, labelled.startClosure_eq, Tabulated.table, Tabulated.acceptLabel]
  dsimp only [bind, Except.bind, pure, Except.pure]
  rw [labelled.labelSet_startSet]
  cases a.graph.label a.output <;> rfl

end Rounds

end Nfa

namespace Tabulated

theorem constructs_powerset (a : Nfa) : Constructs ⟨a, none⟩ (powerset ⟨a, none⟩).2 := by
  rw [Constructs, powerset]
  cases tabulated : a.labelled.tabulate .closure with
  | error e =>
    rw [make_of_error (t := ⟨a, none⟩) rfl tabulated]
    rfl
  | ok table =>
    have labelled := a.labels_labelled.labelled tabulated
    obtain rfl := Except.ok.inj ((labelled.tabulate_eq_ok .closure).symm.trans tabulated)
    have made : make ⟨a, none⟩ = (⟨a.labelled, some (a.labelled.closureTable a.labelling)⟩,
      .ok (a.labelled.closureTable a.labelling)) := make_of_ok (t := ⟨a, none⟩) rfl tabulated
    have opened := labelled.opening_eq
    rw [made]
    dsimp only [Except.bind, bind, pure, Except.pure]
    rw [opened, acceptLabel]
    cases a.labelled.graph.label a.labelled.output with
    | error e => rfl
    | ok accept => exact labelled.ends_powerset accept

/-- The rounds come to an end, and what they end in is the powerset automaton or its error. -/
theorem constructs_iff {a : Nfa} : Constructs ⟨a, none⟩ r ↔ r = (powerset ⟨a, none⟩).2 := by
  constructor
  · intro constructs
    exact constructs.unique (constructs_powerset a)
  · rintro rfl
    exact constructs_powerset a

end Tabulated

end FiniteAutomata
