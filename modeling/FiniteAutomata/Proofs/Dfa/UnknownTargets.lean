import FiniteAutomata.Proofs.Dfa.Equivalence
import FiniteAutomata.Proofs.Dfa.Relabel

/-!
Targets that name no row. Renaming rows, splitting them by behaviour and merging them all look up
every target first, row by row and in each row column by column, and fail with the first one that
names no row. They have no other way to fail (`closed_or_firstUnknown`).
-/

namespace FiniteAutomata.Dfa

variable {d : Dfa}

/-- The target of a row on the symbol of a column. -/
structure Entry where
  row : String
  symbol : Char
  target : Option String

def entriesOf (d : Dfa) (r : Row) : List Entry :=
  (r.targets.zip d.alphabet).map fun (target, c) => ⟨r.heading.label, c, target⟩

/-- The entries of a table, row by row. -/
def entries (d : Dfa) : List Entry := d.rows.flatMap d.entriesOf

/-- The first entry with a target that names no row. -/
def FirstUnknown (d : Dfa) (row : String) (c : Char) (target : String) : Prop :=
  ∃ before after, d.entries = before ++ ⟨row, c, some target⟩ :: after ∧ d.index? target = none ∧
    ∀ e ∈ before, ∀ t, e.target = some t → ∃ i, d.index? t = some i

/-- What looking up the target of an entry fails with. -/
def Entry.error? (d : Dfa) (e : Entry) : Option TableError :=
  FiniteAutomata.error? (resolve d.index? e.row e.symbol e.target)

theorem Entry.error?_eq_none_iff {e : Entry} :
    e.error? d = none ↔ ∀ target, e.target = some target → ∃ i, d.index? target = some i := by
  obtain ⟨row, c, target⟩ := e
  cases target with
  | none => simp [Entry.error?, resolve, FiniteAutomata.error?]
  | some target =>
    cases found : d.index? target <;> simp [Entry.error?, resolve, FiniteAutomata.error?, found]

theorem Entry.error?_eq_some_iff {e : Entry} {error : TableError} : e.error? d = some error ↔
    ∃ target, e.target = some target ∧ d.index? target = none ∧
      error = .unknownTarget e.row e.symbol target := by
  obtain ⟨row, c, target⟩ := e
  cases target with
  | none => simp [Entry.error?, resolve, FiniteAutomata.error?]
  | some target =>
    cases found : d.index? target <;>
      simp [Entry.error?, resolve, FiniteAutomata.error?, found, eq_comm]

theorem error?_targetIndices (d : Dfa) (r : Row) :
    error? (d.targetIndices r) = (d.entriesOf r).findSome? (Entry.error? d) := by
  rw [targetIndices, resolveAll, error?_mapM, entriesOf, List.findSome?_map]
  rfl

theorem error?_transitions (d : Dfa) :
    error? d.transitions = d.entries.findSome? (Entry.error? d) := by
  rw [transitions_eq_mapM, error?_mapM, entries]
  induction d.rows with
  | nil => rfl
  | cons r rows ih =>
    rw [List.findSome?_cons, List.flatMap_cons, List.findSome?_append, ← ih, error?_targetIndices]
    cases (d.entriesOf r).findSome? (Entry.error? d) <;> rfl

theorem mem_entriesOf {r : Row} (member : r ∈ d.rows) {target : Option String} :
    (∃ e ∈ d.entriesOf r, e.target = target) ↔ target ∈ r.targets := by
  have targets : (d.entriesOf r).map Entry.target = r.targets := by
    rw [entriesOf, List.map_map]
    exact List.map_fst_zip (Nat.le_of_eq (d.length_targets r member))
  rw [← List.mem_map, targets]

theorem closed_iff : d.Closed ↔ ∀ e ∈ d.entries, e.error? d = none := by
  simp only [Entry.error?_eq_none_iff, entries, List.mem_flatMap]
  constructor
  · rintro closed e ⟨r, member, entry⟩ target named
    exact closed r member target ((mem_entriesOf member).mp ⟨e, entry, named⟩)
  · intro known r member target named
    obtain ⟨e, entry, same⟩ := (mem_entriesOf member).mpr named
    exact known e ⟨r, member, entry⟩ target same

theorem exists_transitions_eq_error (gap : ¬ d.Closed) : ∃ row c target,
    d.FirstUnknown row c target ∧ d.transitions = .error (.unknownTarget row c target) := by
  cases failed : d.entries.findSome? (Entry.error? d) with
  | none => exact absurd (closed_iff.mpr (List.findSome?_eq_none_iff.mp failed)) gap
  | some error =>
    have result := error?_eq_some_iff.mp ((error?_transitions d).trans failed)
    obtain ⟨before, e, after, split, wrong, fine⟩ := List.findSome?_eq_some_iff.mp failed
    obtain ⟨target, named, unknown, rfl⟩ := Entry.error?_eq_some_iff.mp wrong
    obtain ⟨row, c, _⟩ := e
    obtain rfl := named
    refine ⟨row, c, target, ⟨before, after, split, unknown, fun e member => ?_⟩, result⟩
    exact Entry.error?_eq_none_iff.mp (fine e member)

/-- Renaming, splitting and merging rows succeed if and only if every target names a row. If one does
not, all three report the first that does not. -/
theorem closed_or_firstUnknown (d : Dfa) :
    ((∃ e, d.relabel = .ok e) ↔ d.Closed) ∧ ((∃ ps, d.partitions = .ok ps) ↔ d.Closed) ∧
    ((∃ m, d.minimize = .ok m) ↔ d.Closed) ∧
    (¬ d.Closed → ∃ row c target, d.FirstUnknown row c target ∧
      d.relabel = .error (.unknownTarget row c target) ∧
      d.partitions = .error (.unknownTarget row c target) ∧
      d.minimize = .error (.unknownTarget row c target)) := by
  by_cases closed : d.Closed
  · obtain ⟨e, renamed, -⟩ := closed.exists_relabel_eq_ok
    obtain ⟨-, m, merged, -⟩ := closed.exists_minimize_classifies
    simp [closed, renamed, merged, closed.partitions_eq_ok]
  · obtain ⟨row, c, target, first, failed⟩ := exists_transitions_eq_error closed
    have relabelled : d.relabel = .error (.unknownTarget row c target) := by
      rw [relabel, failed]
      rfl
    have split : d.partitions = .error (.unknownTarget row c target) := by
      rw [partitions, failed]
      rfl
    have merged : d.minimize = .error (.unknownTarget row c target) := by
      rw [minimize, split]
      rfl
    refine ⟨?_, ?_, ?_, fun _ => ⟨row, c, target, first, relabelled, split, merged⟩⟩
    · simp [closed, relabelled]
    · simp [closed, split]
    · simp [closed, merged]

end FiniteAutomata.Dfa
