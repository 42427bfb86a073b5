import FiniteAutomata.Dfa.Draft
import FiniteAutomata.Proofs.Dfa.Rows
import FiniteAutomata.Proofs.Except

/-!
Drafts hold tables. Adding a row to a draft does what adding it to the table does, and a refused row
leaves the draft as it is. So after any calls, refused ones among them, the index has the positions
of the rows (`addRows_empty`).
-/

namespace FiniteAutomata.Dfa

namespace Draft

variable {t u : Draft} {d e : Dfa} {r : Row} {label : String}

/-- A draft has the rows of a table, and finds the positions that the table finds. -/
structure Holds (t : Draft) (d : Dfa) : Prop where
  alphabet : t.alphabet = d.alphabet
  rows : t.rows.toList = d.rows
  index? : ∀ label, t.index? label = d.index? label

/-- Every row fits the alphabet, no two rows have one label, and the index has the positions of the
labels and nothing else. -/
structure Coherent (t : Draft) : Prop where
  length_targets : ∀ r ∈ t.rows, r.targets.length = t.alphabet.length
  nodup_labels : (t.rows.toList.map (·.heading.label)).Nodup
  index?_eq_some_iff : ∀ label i,
    t.index? label = some i ↔ ∃ r, t.rows[i]? = some r ∧ r.heading.label = label

/-- What a call does. The number of columns is checked before the label, and a row that is refused
leaves the draft as it is. -/
inductive Outcome (t : Draft) (r : Row) : Draft → Except TableError Nat → Prop where
  | columnCount (wrong : r.targets.length ≠ t.alphabet.length) :
      Outcome t r t (.error (.columnCount r.heading.label t.alphabet.length r.targets.length))
  | duplicateState (width : r.targets.length = t.alphabet.length)
      (taken : ∃ s ∈ t.rows, s.heading.label = r.heading.label) :
      Outcome t r t (.error (.duplicateState r.heading.label))
  | added {u : Draft} (width : r.targets.length = t.alphabet.length)
      (fresh : ∀ s ∈ t.rows, s.heading.label ≠ r.heading.label)
      (alphabet : u.alphabet = t.alphabet) (rows : u.rows = t.rows.push r) :
      Outcome t r u (.ok t.rows.size)

/-- The rows of the calls that were answered with a position. -/
def accepted (calls : List Row) (answers : List (Except TableError Nat)) : List Row :=
  ((calls.zip answers).filter fun (_, answer) => answer.isOk).map (·.1)

theorem holds_empty (alphabet : List Char) : (empty alphabet).Holds (.empty alphabet) where
  alphabet := rfl
  rows := rfl
  index? _ := Std.TreeMap.getElem?_emptyc

theorem holds_draft (d : Dfa) : d.draft.Holds d where
  alphabet := rfl
  rows := rfl
  index? label := by
    rw [Draft.index?, draft, getElem?_firstPositions, List.findIdx?_map]
    rfl

section Holds

variable (holds : t.Holds d)
include holds

theorem Holds.toDfa_eq_ok : t.toDfa = .ok d :=
  ofRows_eq_ok_iff.mpr ⟨holds.alphabet.symm, holds.rows.symm⟩

theorem Holds.unique (holds' : t.Holds e) : d = e :=
  ext (holds.alphabet.symm.trans holds'.alphabet) (holds.rows.symm.trans holds'.rows)

theorem Holds.size : t.rows.size = d.size := by
  rw [← Array.length_toList, holds.rows, Dfa.size]

theorem Holds.mem_index_iff : label ∈ t.index ↔ label ∈ d.rows.map (·.heading.label) := by
  have known : (t.index[label]?).isSome ↔ label ∈ d.rows.map (·.heading.label) := by
    have same : t.index[label]? = d.index? label := holds.index? label
    rw [same, Option.isSome_iff_ne_none, ne_eq, index?_eq_none_iff, Decidable.not_not]
  rw [Std.TreeMap.mem_iff_isSome_getElem?, known]

theorem Holds.push (added : d.addRow r = .ok e) : Holds
    ⟨t.alphabet, t.rows.push r, t.index.insert r.heading.label t.rows.size⟩ e where
  alphabet := holds.alphabet.trans (addRow_eq_ok added).1.symm
  rows := by rw [Array.toList_push, holds.rows, (addRow_eq_ok added).2]
  index? label := by
    have same : t.index[label]? = d.index? label := holds.index? label
    rw [index?_of_addRow added, Draft.index?, Std.TreeMap.getElem?_insert, same, holds.size]
    simp only [Std.LawfulEqCmp.compare_eq_iff_eq]

theorem Holds.addRow (r : Row) :
    match d.addRow r with
    | .ok e => ∃ u, t.addRow r = (u, .ok d.size) ∧ u.Holds e
    | .error error => t.addRow r = (t, .error error) := by
  rw [Draft.addRow, holds.alphabet]
  -- A label is looked up in the index here and among the labels there, which is the same.
  by_cases width : r.targets.length = d.alphabet.length
  · rw [if_neg (not_not_intro width)]
    by_cases taken : r.heading.label ∈ d.rows.map (·.heading.label)
    · rw [addRow_of_label width taken, if_pos (holds.mem_index_iff.mpr taken)]
    · obtain ⟨e, added⟩ := exists_addRow width taken
      rw [added, if_neg (mt holds.mem_index_iff.mp taken)]
      refine ⟨_, ?_, holds.push added⟩
      rw [holds.alphabet, holds.size]
  · rw [addRow_of_width width, if_pos width]

theorem Holds.mem_rows_iff : r ∈ t.rows ↔ r ∈ d.rows := by
  rw [← Array.mem_toList_iff, holds.rows]

theorem Holds.coherent : t.Coherent where
  length_targets r member := by
    rw [holds.alphabet]
    exact d.length_targets r (holds.mem_rows_iff.mp member)
  nodup_labels := by
    rw [holds.rows]
    exact d.nodup_labels
  index?_eq_some_iff label i := by
    rw [holds.index?, Dfa.index?_eq_some_iff, ← holds.rows]
    simp only [Array.getElem?_toList]

theorem Holds.outcome (r : Row) : t.Outcome r (t.addRow r).1 (t.addRow r).2 := by
  have taken_iff : r.heading.label ∈ t.index ↔ ∃ s ∈ t.rows, s.heading.label = r.heading.label := by
    simp only [holds.mem_index_iff, List.mem_map, holds.mem_rows_iff]
  by_cases width : r.targets.length = t.alphabet.length
  · by_cases taken : r.heading.label ∈ t.index
    · rw [Draft.addRow, if_neg (not_not_intro width), if_pos taken]
      exact .duplicateState width (taken_iff.mp taken)
    · rw [Draft.addRow, if_neg (not_not_intro width), if_neg taken]
      refine .added width (fun s member same => taken ?_) rfl rfl
      exact taken_iff.mpr ⟨s, member, same⟩
  · rw [Draft.addRow, if_pos width]
    exact .columnCount width

end Holds

/-- A table that is made ready for more rows is not changed by it. -/
theorem toDfa_draft (d : Dfa) : d.draft.toDfa = .ok d := (holds_draft d).toDfa_eq_ok

/-! ### Sequences of calls -/

theorem addRows_cons {answer : Except TableError Nat} (call : t.addRow r = (u, answer))
    (rs : List Row) : t.addRows (r :: rs) = ((u.addRows rs).1, answer :: (u.addRows rs).2) := by
  rw [addRows, call]

theorem length_addRows (t : Draft) (calls : List Row) :
    (t.addRows calls).2.length = calls.length := by
  induction calls generalizing t with
  | nil => rfl
  | cons r rs ih => rw [addRows_cons rfl, List.length_cons, ih, List.length_cons]

theorem Holds.addRows (holds : t.Holds d) (calls : List Row) :
    ∃ e, (t.addRows calls).1.Holds e ∧ e.alphabet = d.alphabet ∧
      e.rows = d.rows ++ accepted calls (t.addRows calls).2 := by
  induction calls generalizing t d with
  | nil => exact ⟨d, holds, rfl, (List.append_nil _).symm⟩
  | cons r rs ih =>
    have step := holds.addRow r
    cases result : d.addRow r with
    | error error =>
      rw [result] at step
      rw [addRows_cons step]
      exact ih holds
    | ok d' =>
      rw [result] at step
      obtain ⟨u, call, holds'⟩ := step
      rw [addRows_cons call]
      obtain ⟨e, final, alphabet, rows⟩ := ih holds'
      refine ⟨e, final, alphabet.trans (addRow_eq_ok result).1, ?_⟩
      rw [rows, (addRow_eq_ok result).2, List.append_assoc]
      rfl

/-- Without the rows behind the first one that is refused, the calls are those that make a table of
all rows. -/
theorem Holds.foldlM_addRow (holds : t.Holds d) (calls : List Row) :
    match (t.addRows calls).2.findSome? error? with
    | some error => calls.foldlM Dfa.addRow d = .error error
    | none => ∃ e, calls.foldlM Dfa.addRow d = .ok e ∧ (t.addRows calls).1.Holds e := by
  induction calls generalizing t d with
  | nil => exact ⟨d, rfl, holds⟩
  | cons r rs ih =>
    have step := holds.addRow r
    rw [List.foldlM_cons]
    cases result : d.addRow r with
    | error error =>
      rw [result] at step
      rw [addRows_cons step]
      rfl
    | ok d' =>
      rw [result] at step
      obtain ⟨u, call, holds'⟩ := step
      rw [addRows_cons call]
      exact ih holds'

/-- A table of the given rows is made by calls that all succeed. Otherwise the first one that fails
decides. -/
theorem ofRows_iff (alphabet : List Char) (calls : List Row) :
    (∀ e, ofRows alphabet calls = .error e ↔
      ((empty alphabet).addRows calls).2.findSome? error? = some e) ∧
    ∀ d, ofRows alphabet calls = .ok d ↔
      ((empty alphabet).addRows calls).2.findSome? error? = none ∧
        ((empty alphabet).addRows calls).1.Holds d := by
  have together := (holds_empty alphabet).foldlM_addRow calls
  rw [← ofRows_eq_foldlM] at together
  cases first : ((empty alphabet).addRows calls).2.findSome? error? with
  | some error =>
    rw [first] at together
    rw [together]
    refine ⟨fun e => ?_, fun d => ⟨nofun, nofun⟩⟩
    rw [Except.error.injEq, Option.some.injEq]
  | none =>
    rw [first] at together
    obtain ⟨e, made, final⟩ := together
    rw [made]
    refine ⟨fun error => ⟨nofun, nofun⟩, fun d => ⟨?_, fun same => ?_⟩⟩
    · rintro ⟨⟩
      exact ⟨rfl, final⟩
    · rw [final.unique same.2]

theorem addRows_empty (alphabet : List Char) (calls : List Row) :
    ∃ t answers, (empty alphabet).addRows calls = (t, answers) ∧
      answers.length = calls.length ∧ t.alphabet = alphabet ∧ t.Coherent ∧
      t.rows.toList = accepted calls answers ∧
      (∀ r, t.Outcome r (t.addRow r).1 (t.addRow r).2) ∧
      (∀ e, ofRows alphabet calls = .error e ↔ answers.findSome? error? = some e) ∧
      ∀ d, ofRows alphabet calls = .ok d ↔ (∀ answer ∈ answers, ∃ i, answer = .ok i) ∧ t.Holds d := by
  obtain ⟨d, holds, same, rows⟩ := (holds_empty alphabet).addRows calls
  obtain ⟨fails, makes⟩ := ofRows_iff alphabet calls
  refine ⟨_, _, rfl, length_addRows _ _, holds.alphabet.trans same, holds.coherent,
    holds.rows.trans rows, holds.outcome, fails, fun d => ?_⟩
  simp only [makes, List.findSome?_eq_none_iff, error?_eq_none_iff]

/-- The second row has too few targets and the third one a label that is taken. -/
example :
    let row (label : String) (targets : List (Option String)) : Row := ⟨⟨label, false, true⟩, targets⟩
    ((empty ['a']).addRows [row "p" [none], row "q" [], row "p" [some "q"], row "q" [none]]).2 =
      [.ok 0, .error (.columnCount "q" 1 0), .error (.duplicateState "p"), .ok 1] := by cbv

end Draft

end FiniteAutomata.Dfa
