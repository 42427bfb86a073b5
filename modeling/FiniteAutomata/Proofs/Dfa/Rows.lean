import FiniteAutomata.Dfa.Basic

/-!
Looking up the rows of a table, and adding more. Labels are distinct, so every row is the one that
its label finds, and a target leads to the row with its label.
-/

namespace FiniteAutomata.Dfa

variable {d e : Dfa} {r : Row} {i j : Nat} {c : Char} {label : String}

theorem ofRows_eq_ok_iff {alphabet : List Char} {rows : List Row} :
    ofRows alphabet rows = .ok d ↔ d.alphabet = alphabet ∧ d.rows = rows := by
  constructor
  · intro made
    rw [ofRows] at made
    split at made
    · cases made
    · cases made
      exact ⟨rfl, rfl⟩
  · rintro ⟨rfl, rfl⟩
    rw [ofRows]
    have right : rowError? d.alphabet.length ∅ d.rows = none :=
      rowError?_eq_none.mpr ⟨d.length_targets, d.nodup_labels, by simp⟩
    split
    · next wrong => cases right.symm.trans wrong
    · rfl

theorem index?_eq_some_iff :
    d.index? label = some i ↔ ∃ r, d.rows[i]? = some r ∧ r.heading.label = label := by
  rw [index?, List.findIdx?_eq_some_iff_getElem]
  constructor
  · rintro ⟨lt, same, -⟩
    exact ⟨d.rows[i], List.getElem?_eq_getElem lt, by simpa using same⟩
  · rintro ⟨r, row, rfl⟩
    obtain ⟨lt, rfl⟩ := List.getElem?_eq_some_iff.mp row
    refine ⟨lt, by simp, fun j before same => ?_⟩
    have other := List.pairwise_iff_getElem.mp d.nodup_labels j i (by simp; omega) (by simpa) before
    exact other (by simpa using same)

theorem index?_eq_none_iff : d.index? label = none ↔ label ∉ d.rows.map (·.heading.label) := by
  rw [index?, List.findIdx?_eq_none_iff, List.mem_map]
  constructor
  · rintro other ⟨r, member, rfl⟩
    simpa using other r member
  · intro absent r member
    rw [decide_eq_false_iff_not]
    exact fun same => absent ⟨r, member, same⟩

theorem index?_label {r : Row} (row : d.rows[i]? = some r) : d.index? r.heading.label = some i :=
  index?_eq_some_iff.mpr ⟨r, row, rfl⟩

theorem lt_size_of_index?_eq_some (found : d.index? label = some i) : i < d.size := by
  obtain ⟨r, row, -⟩ := index?_eq_some_iff.mp found
  exact (List.getElem?_eq_some_iff.mp row).1

theorem exists_row (lt : i < d.size) : ∃ r, d.rows[i]? = some r :=
  ⟨_, List.getElem?_eq_getElem lt⟩

theorem column?_eq_none_iff : d.column? c = none ↔ c ∉ d.alphabet := by
  rw [column?, List.findIdx?_eq_none_iff]
  constructor
  · intro other member
    simpa using other c member
  · intro absent b member
    rw [decide_eq_false_iff_not]
    rintro rfl
    exact absent member

theorem target?_of_not_mem (absent : c ∉ d.alphabet) : d.target? i c = none := by
  rw [target?, column?_eq_none_iff.mpr absent]
  cases d.rows[i]? <;> rfl

/-- In a row whose targets are given by a function, the target on a symbol is its value. -/
theorem target?_of_map {r : Row} (row : d.rows[i]? = some r) {f : Char → Option String}
    (targets : r.targets = d.alphabet.map f) (member : c ∈ d.alphabet) :
    d.target? i c = f c := by
  cases column : d.column? c with
  | none => exact absurd member (column?_eq_none_iff.mp column)
  | some n =>
    have spot := column
    rw [column?, List.findIdx?_eq_some_iff_getElem] at spot
    obtain ⟨lt, same, -⟩ := spot
    have letter : d.alphabet[n]? = some c := by
      rw [List.getElem?_eq_getElem lt]
      exact congrArg some (by simpa using same)
    simp [target?, row, column, targets, letter]

/-! ### Following words -/

theorem follow_cons (d : Dfa) (i : Nat) (c : Char) (w : List Char) :
    d.follow i (c :: w) = (d.step? i c).bind (d.follow · w) := by
  rw [follow, List.foldlM_cons]
  rfl

/-! ### Adding rows -/

theorem addRow_of_width (wrong : r.targets.length ≠ d.alphabet.length) : d.addRow r =
    .error (.columnCount r.heading.label d.alphabet.length r.targets.length) :=
  dif_neg wrong

theorem addRow_of_label (width : r.targets.length = d.alphabet.length)
    (taken : r.heading.label ∈ d.rows.map (·.heading.label)) :
    d.addRow r = .error (.duplicateState r.heading.label) := by
  rw [addRow, dif_pos width, dif_neg (not_not_intro taken)]

theorem exists_addRow (width : r.targets.length = d.alphabet.length)
    (fresh : r.heading.label ∉ d.rows.map (·.heading.label)) : ∃ e, d.addRow r = .ok e := by
  rw [addRow, dif_pos width, dif_pos fresh]
  exact ⟨_, rfl⟩

theorem addRow_eq_ok (added : d.addRow r = .ok e) :
    e.alphabet = d.alphabet ∧ e.rows = d.rows ++ [r] := by
  unfold addRow at added
  split at added
  · split at added
    · cases added
      exact ⟨rfl, rfl⟩
    · cases added
  · cases added

/-- The row that was added has a label that the rows before it do not have. -/
theorem index?_of_addRow (added : d.addRow r = .ok e) (label : String) :
    e.index? label = if r.heading.label = label then some d.size else d.index? label := by
  have rows := (addRow_eq_ok added).2
  split
  · next same =>
    refine index?_eq_some_iff.mpr ⟨r, ?_, same⟩
    rw [rows, size, List.getElem?_concat_length]
  · next other =>
    rw [index?, rows, List.findIdx?_append, index?]
    simp [other]

end FiniteAutomata.Dfa
