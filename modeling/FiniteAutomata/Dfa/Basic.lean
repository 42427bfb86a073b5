import FiniteAutomata.Errors
import FiniteAutomata.Label
import FiniteAutomata.Occurrence

/-!
Deterministic automata given by their tables. Rows keep the order in which they were added, have
one column for every symbol of the alphabet, and name their targets by the labels of other rows. A
target may name no row at all; reading stops there, and operations that need the row report it.
-/

namespace FiniteAutomata

structure Dfa.Row where
  heading : Heading String
  targets : List (Option String)
deriving DecidableEq

structure Dfa where
  alphabet : List Char
  rows : List Dfa.Row
  length_targets : ∀ r ∈ rows, r.targets.length = alphabet.length
  nodup_labels : (rows.map (·.heading.label)).Nodup
deriving DecidableEq

namespace Dfa

def empty (alphabet : List Char) : Dfa := ⟨alphabet, [], by simp, by simp⟩

def size (d : Dfa) : Nat := d.rows.length

/-- The position of the row with a given plain label. -/
def index? (d : Dfa) (label : String) : Option Nat :=
  d.rows.findIdx? (·.heading.label = label)

/-- Appends a row. The number of its columns is checked before its label. -/
def addRow (d : Dfa) (r : Row) : Except TableError Dfa :=
  if width : r.targets.length = d.alphabet.length then
    if fresh : r.heading.label ∉ d.rows.map (·.heading.label) then .ok {
      alphabet := d.alphabet
      rows := d.rows ++ [r]
      length_targets := by
        intro s hs
        rcases List.mem_append.mp hs with hs | hs
        · exact d.length_targets s hs
        · rw [List.mem_singleton.mp hs]
          exact width
      nodup_labels := by
        rw [List.map_append, List.nodup_append]
        refine ⟨d.nodup_labels, by simp, ?_⟩
        rintro _ h _ h' rfl
        rw [List.map_singleton, List.mem_singleton] at h'
        exact fresh (h' ▸ h) }
    else .error (.duplicateState r.heading.label)
  else .error (.columnCount r.heading.label d.alphabet.length r.targets.length)

/-- The error of the first row that cannot be added after rows with the labels `seen`. -/
def rowError? (width : Nat) (seen : Std.TreeSet String) : List Row → Option TableError
  | [] => none
  | r :: rows =>
    if r.targets.length ≠ width then some (.columnCount r.heading.label width r.targets.length)
    else if r.heading.label ∈ seen then some (.duplicateState r.heading.label)
    else rowError? width (seen.insert r.heading.label) rows

theorem rowError?_eq_none {width : Nat} {seen : Std.TreeSet String} {rows : List Row} :
    rowError? width seen rows = none ↔ (∀ r ∈ rows, r.targets.length = width) ∧
      (rows.map (·.heading.label)).Nodup ∧ ∀ r ∈ rows, r.heading.label ∉ seen := by
  induction rows generalizing seen with
  | nil => simp [rowError?]
  | cons r rows ih =>
    rw [rowError?]
    split
    · next h => simp [h]
    · next h =>
      split
      · next h' => simp [h']
      · next h' =>
        simp only [ih, List.map_cons, List.nodup_cons, List.forall_mem_cons,
          Std.TreeSet.mem_insert, Std.LawfulEqCmp.compare_eq_iff_eq, List.mem_map]
        grind

theorem rowError?_upToRepeatAfter {width : Nat} {seen : Std.TreeSet String} {rows : List Row} :
    rowError? width seen (upToRepeatAfter (·.heading.label) seen rows) =
      rowError? width seen rows := by
  induction rows generalizing seen with
  | nil => rfl
  | cons r rows ih =>
    rw [upToRepeatAfter]
    split
    · next known => rw [rowError?, if_pos known, rowError?, if_pos known]
    · rw [rowError?, rowError?, ih]

/-- A table with the given rows, unless one of them cannot be added after those before it. -/
def ofRows (alphabet : List Char) (rows : List Row) : Except TableError Dfa :=
  match checked : rowError? alphabet.length ∅ rows with
  | some e => .error e
  | none =>
    .ok ⟨alphabet, rows, (rowError?_eq_none.mp checked).1, (rowError?_eq_none.mp checked).2.1⟩

theorem ofRows_of_rowError {alphabet : List Char} {rows : List Row} {e : TableError}
    (wrong : rowError? alphabet.length ∅ rows = some e) : ofRows alphabet rows = .error e := by
  rw [ofRows]
  split
  · next checked => exact congrArg Except.error (Option.some.inj (checked.symm.trans wrong))
  · next checked => cases checked.symm.trans wrong

theorem ext {d e : Dfa} (alphabet : d.alphabet = e.alphabet) (rows : d.rows = e.rows) : d = e := by
  cases d
  cases e
  obtain rfl : _ = _ := alphabet
  obtain rfl : _ = _ := rows
  rfl

theorem foldlM_addRow {d : Dfa} {seen : Std.TreeSet String} {rows : List Row}
    (same : ∀ label, label ∈ seen ↔ label ∈ d.rows.map (·.heading.label)) :
    (rows.foldlM addRow d).map (fun d => (d.alphabet, d.rows)) =
      match rowError? d.alphabet.length seen rows with
      | some e => .error e
      | none => .ok (d.alphabet, d.rows ++ rows) := by
  induction rows generalizing d seen with
  | nil => simp [rowError?, pure, Except.pure, Except.map]
  | cons r rows ih =>
    rw [rowError?, List.foldlM_cons, addRow]
    by_cases width : r.targets.length = d.alphabet.length
    · rw [dif_pos width, if_neg (Decidable.not_not.mpr width)]
      by_cases fresh : r.heading.label ∈ d.rows.map (·.heading.label)
      · rw [dif_neg (Decidable.not_not.mpr fresh), if_pos ((same _).mpr fresh)]
        rfl
      · rw [dif_pos fresh, if_neg (mt (same _).mp fresh)]
        refine (@ih _ (seen.insert r.heading.label) fun label => ?_).trans ?_
        · rw [Std.TreeSet.mem_insert, Std.LawfulEqCmp.compare_eq_iff_eq, same, List.map_append,
            List.mem_append, List.map_singleton, List.mem_singleton, or_comm, @eq_comm _ label]
        · rw [List.append_assoc, List.singleton_append]
    · rw [dif_neg width, if_pos width]
      rfl

/-- Rows given together are added one by one. -/
theorem ofRows_eq_foldlM (alphabet : List Char) (rows : List Row) :
    ofRows alphabet rows = rows.foldlM addRow (empty alphabet) := by
  have added := @foldlM_addRow (empty alphabet) ∅ rows (by simp [empty])
  generalize rows.foldlM addRow (empty alphabet) = result at added
  rw [ofRows]
  split
  · next e wrong =>
    rw [empty, wrong] at added
    cases result with
    | error e' => exact congrArg Except.error (Except.error.inj added).symm
    | ok d => cases added
  · next right =>
    rw [empty, right] at added
    cases result with
    | error e' => cases added
    | ok d =>
      obtain ⟨alphabet', rows'⟩ := Prod.mk.inj (Except.ok.inj added)
      exact congrArg Except.ok (ext alphabet'.symm rows'.symm)

/-- The first row that repeats a label decides as much as all rows. -/
theorem ofRows_upToRepeat (alphabet : List Char) (rows : List Row) :
    ofRows alphabet (upToRepeat (·.heading.label) rows) = ofRows alphabet rows := by
  have same : rowError? alphabet.length ∅ (upToRepeat (·.heading.label) rows) =
      rowError? alphabet.length ∅ rows := rowError?_upToRepeatAfter
  cases checked : rowError? alphabet.length ∅ rows with
  | none =>
    have right := rowError?_eq_none.mp checked
    rw [upToRepeat, upToRepeatAfter_eq_self right.2.1 right.2.2]
  | some e =>
    rw [checked] at same
    rw [ofRows_of_rowError same, ofRows_of_rowError checked]

/-- The row at a position, which must exist. -/
def row (d : Dfa) (i : Nat) : Except Misuse Row :=
  match d.rows[i]? with
  | some r => .ok r
  | none => .error (.noRow i)

/-- The row of a key, which is a plain label or, if there is none, a label behind its marks. -/
def get? (d : Dfa) (key : String) : Option Row :=
  match d.index? key <|> d.index? (Heading.parse key).label with
  | some i => d.rows[i]?
  | none => none

/-- The position of the first column of a symbol. -/
def column? (d : Dfa) (c : Char) : Option Nat := d.alphabet.findIdx? (· = c)

/-- The target of a row on a symbol. -/
def target? (d : Dfa) (i : Nat) (c : Char) : Option String := do
  let r ← d.rows[i]?
  let target ← r.targets[← d.column? c]?
  target

/-- The target of an existing row. Symbols outside of the alphabet have no target on any row. -/
def target (d : Dfa) (i : Nat) (c : Char) : Except Misuse (Option String) :=
  if (d.column? c).isSome ∧ d.size ≤ i then .error (.noRow i) else .ok (d.target? i c)

/-- The position of the row that a target names, where `position?` finds labels. -/
def resolve (position? : String → Option Nat) (row : String) (c : Char) :
    Option String → Except TableError (Option Nat)
  | none => .ok none
  | some target =>
    match position? target with
    | some i => .ok (some i)
    | none => .error (.unknownTarget row c target)

/-- The positions of all targets of a row in alphabet order. -/
def resolveAll (position? : String → Option Nat) (alphabet : List Char) (r : Row) :
    Except TableError (List (Option Nat)) :=
  (r.targets.zip alphabet).mapM fun (target, c) => resolve position? r.heading.label c target

def targetIndices (d : Dfa) (r : Row) : Except TableError (List (Option Nat)) :=
  resolveAll d.index? d.alphabet r

/-- The positions of the targets of every row. -/
def transitions (d : Dfa) : Except TableError (List (List (Option Nat))) :=
  let positions := firstPositions (d.rows.map (·.heading.label))
  d.rows.mapM (resolveAll (positions[·]?) d.alphabet)

theorem transitions_eq_mapM (d : Dfa) : d.transitions = d.rows.mapM d.targetIndices := by
  have same : ((firstPositions (d.rows.map (·.heading.label)))[·]?) = d.index? := by
    funext label
    rw [getElem?_firstPositions, List.findIdx?_map]
    rfl
  rw [transitions, same]
  rfl

/-- The position of the first starting row. -/
def start? (d : Dfa) : Option Nat := d.rows.findIdx? (·.heading.starts)

def start (d : Dfa) : Except TableError Nat :=
  match d.start? with
  | some i => .ok i
  | none => .error .missingStartState

/-! ### Reading words -/

def step? (d : Dfa) (i : Nat) (c : Char) : Option Nat := do d.index? (← d.target? i c)

/-- The row that a word leads to from a row. -/
def follow (d : Dfa) (i : Nat) (word : List Char) : Option Nat := word.foldlM d.step? i

def isAccepting (d : Dfa) (i : Nat) : Bool := (d.rows[i]?).any (·.heading.accepts)

/-- Whether a word leads from the first starting row to an accepting row. -/
def accepts (d : Dfa) (word : List Char) : Bool :=
  (d.start?.bind (d.follow · word)).any d.isAccepting

end Dfa

end FiniteAutomata
