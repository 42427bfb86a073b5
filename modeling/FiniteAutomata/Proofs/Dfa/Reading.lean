import FiniteAutomata.Dfa.Reading
import FiniteAutomata.Proofs.Except
import FiniteAutomata.Proofs.Json.Strings
import FiniteAutomata.Proofs.Json.Written

/-!
Documents are read in every spelling: each row under its heading, with its columns in their order,
repetitions included. Reading a sheet fails at the first column whose key is no symbol, and what a
document is written as is read back.
-/

namespace FiniteAutomata

namespace Sheet

variable {s : Sheet} {doc : Document}

/-! ### Spellings -/

/-- `null` or a string. -/
inductive TargetText : List Char → Option String → List Char → Prop where
  | null {cs rest : List Char} :
    Json.Spaced cs ('n' :: 'u' :: 'l' :: 'l' :: rest) → TargetText cs none rest
  | label {label : String} {cs cs' rest : List Char} :
    Json.Spaced cs cs' → Json.StringText cs' label rest → TargetText cs (some label) rest

def ColumnsText : List Char → List (String × Option String) → List Char → Prop :=
  Json.ObjectText Prod.fst fun cs column => TargetText cs column.2

def RowsText : List Char → Sheet → List Char → Prop :=
  Json.ObjectText Prod.fst fun cs entry => ColumnsText cs entry.2

/-- The text is an object with the rows of the sheet. It may be spaced and its strings may be spelled
in any way. -/
def SpelledBy (s : Sheet) (text : String) : Prop :=
  ∃ rest, RowsText text.toList s rest ∧ Json.Spaced rest []

theorem TargetText.length_lt {cs rest : List Char} {target : Option String}
    (spelled : TargetText cs target rest) : rest.length < cs.length := by
  cases spelled with
  | null spaced =>
    have before := spaced.length_le
    simp only [List.length_cons] at before
    omega
  | label spaced label => exact Nat.lt_of_lt_of_le label.length_lt spaced.length_le

theorem ColumnsText.length_lt {cs rest : List Char} {columns : List (String × Option String)}
    (spelled : ColumnsText cs columns rest) : rest.length < cs.length :=
  Json.ObjectText.length_lt TargetText.length_lt spelled

theorem targetText_targetJson (target : Option String) (rest : List Char) :
    TargetText (targetJson target ++ rest) target rest := by
  cases target with
  | none => exact .null .none
  | some label => exact .label .none (Json.stringText_string label rest)

/-- The text of a sheet is a spelling of it. -/
theorem spelledBy_text (s : Sheet) : s.SpelledBy s.text := by
  have row (columns : List (String × Option String)) (rest : List Char) : ColumnsText
      (Json.object (columns.map fun column => (column.1, targetJson column.2)) ++ rest)
      columns rest :=
    Json.objectText_object (fun column => targetText_targetJson column.2) columns rest
  have whole : RowsText (Json.object (s.map fun entry => (entry.1, Json.object
      (entry.2.map fun column => (column.1, targetJson column.2)))) ++ []) s [] :=
    Json.objectText_object (fun entry => row entry.2) s []
  rw [List.append_nil] at whole
  refine ⟨[], ?_, .none⟩
  rw [text, String.toList_ofList]
  exact whole

/-! ### Meaning -/

def column : String × Option String → Except DocumentError (Char × Option String)
  | (key, target) =>
    match key.toList with
    | [c] => .ok (c, target)
    | _ => .error (.notSymbol key)

def row : String × List (String × Option String) → Except DocumentError (String × Columns)
  | (key, columns) => (columns.mapM column).map (key, ·)

/-- The document on a sheet. The first key of a column that is no symbol is reported. -/
def toDocument (s : Sheet) : Except DocumentError Document := s.mapM row

theorem column_eq_ok_iff (x : String × Option String) (y : Char × Option String) :
    column x = .ok y ↔ (y.1.toString, y.2) = x := by
  obtain ⟨key, target⟩ := x
  obtain ⟨c, target'⟩ := y
  rw [column, Prod.mk.injEq, ← String.toList_inj, Char.toString_eq_singleton,
    String.toList_singleton]
  split
  · next c' same => simp [same, eq_comm]
  · next other =>
    refine ⟨nofun, fun same => ?_⟩
    exact absurd same.1.symm (other c)

theorem row_eq_ok_iff (x : String × List (String × Option String)) (y : String × Columns) :
    row x = .ok y ↔ (y.1, y.2.map fun column => (column.1.toString, column.2)) = x := by
  obtain ⟨key, columns⟩ := x
  obtain ⟨key', columns'⟩ := y
  have inner : columns.mapM column = .ok columns' ↔ _ := mapM_eq_ok_iff column_eq_ok_iff
  rw [row, Prod.mk.injEq, ← inner]
  cases columns.mapM column with
  | error e => exact ⟨nofun, fun same => nomatch same.2⟩
  | ok read =>
    show Except.ok (key, read) = .ok (key', columns') ↔ _
    simp [eq_comm]

theorem toDocument_eq_ok_iff : s.toDocument = .ok doc ↔ doc.toSheet = s :=
  mapM_eq_ok_iff row_eq_ok_iff

end Sheet

/-! ### Reading -/

namespace Document

section Objects

variable {α β : Type} {key : α → String} {spelling : List Char → α → List Char → Prop}
  {value : String → List Char → Except DocumentError (β × List Char)}
  {meaning : α → Except DocumentError β} {cs rest : List Char} {xs : List α}

/-- Behind the key of an entry, `value` reads every spelling of the entry as what it means. -/
structure Reads (key : α → String) (spelling : List Char → α → List Char → Prop)
    (value : String → List Char → Except DocumentError (β × List Char))
    (meaning : α → Except DocumentError β) : Prop where
  shrinks : ∀ {cs x rest}, spelling cs x rest → rest.length < cs.length
  value_eq : ∀ {cs x rest}, spelling cs x rest → value (key x) cs = (meaning x).map (·, rest)

variable (reads : Reads key spelling value meaning)
include reads

/-- Behind the key and the colon of an entry, the entry and those behind it are read. -/
theorem Reads.entries_of_nextKey {limit : Nat} {first : Bool} {x : α} {entry more : List Char}
    (next : Json.nextKey first cs = .ok (some (key x), entry)) (spelled : spelling entry x more)
    (others : entries value limit false more = (xs.mapM meaning).map (·, rest)) :
    entries value (limit + 1) first cs = ((x :: xs).mapM meaning).map (·, rest) := by
  rw [entries, next]
  show (value (key x) entry >>= _) = _
  rw [reads.value_eq spelled, List.mapM_cons]
  cases meaning x with
  | error e => rfl
  | ok y =>
    show (entries value limit false more >>= _) = _
    rw [others]
    cases xs.mapM meaning <;> rfl

theorem Reads.entries_eq {limit : Nat} {first : Bool}
    (spelled : Json.EntriesText key spelling first cs xs rest) (enough : cs.length < limit) :
    entries value limit first cs = (xs.mapM meaning).map (·, rest) := by
  induction spelled generalizing limit with
  | close spaced =>
    obtain ⟨limit, rfl⟩ := Nat.exists_eq_add_of_lt enough
    rw [entries, Json.nextKey_of_close spaced]
    rfl
  | head spaced entry _ ih =>
    have before := spaced.length_le
    have shorter := entry.length_lt reads.shrinks
    obtain ⟨limit, rfl⟩ : ∃ n, limit = n + 1 := ⟨limit - 1, by omega⟩
    obtain ⟨name, colon, value⟩ := entry
    exact reads.entries_of_nextKey (Json.nextKey_first spaced name colon) value (ih (by omega))
  | next spaced spaced' entry _ ih =>
    have before := spaced.length_le
    have behind := spaced'.length_le
    have shorter := entry.length_lt reads.shrinks
    rw [List.length_cons] at before
    obtain ⟨limit, rfl⟩ : ∃ n, limit = n + 1 := ⟨limit - 1, by omega⟩
    obtain ⟨name, colon, value⟩ := entry
    exact reads.entries_of_nextKey (Json.nextKey_comma spaced spaced' name colon) value
      (ih (by omega))

theorem Reads.object_eq (part : Part) (spelled : Json.ObjectText key spelling cs xs rest) :
    object part value cs = (xs.mapM meaning).map (·, rest) := by
  cases spelled with
  | mk spaced entries =>
    rw [object, Json.skipSpace_of_spaced spaced, Json.skipSpace_cons rfl]
    exact reads.entries_eq entries (Nat.lt_succ_self _)

end Objects

theorem readTarget_eq {cs rest : List Char} {target : Option String}
    (spelled : Sheet.TargetText cs target rest) : readTarget cs = .ok (target, rest) := by
  cases spelled with
  | null spaced =>
    rw [readTarget, Json.skipSpace_of_spaced spaced, Json.skipSpace_cons rfl]
    rfl
  | @label label _ _ _ spaced spelled =>
    obtain ⟨chars, rfl, read⟩ := Json.exists_stringRest_of_stringText spelled
    rw [readTarget, Json.skipSpace_of_spaced spaced, Json.skipSpace_cons rfl]
    show (ofFault (Json.stringRest chars) >>= _) = _
    rw [read]
    rfl

theorem reads_column :
    Reads Prod.fst (fun cs column => Sheet.TargetText cs column.2) readColumn Sheet.column where
  shrinks := Sheet.TargetText.length_lt
  value_eq {cs column rest} spelled := by
    rw [readColumn, readTarget_eq spelled, Sheet.column]
    show (match column.1.toList with
      | [c] => pure ((c, column.2), rest)
      | _ => throw (DocumentError.notSymbol column.1)) = _
    split <;> rfl

theorem reads_row :
    Reads Prod.fst (fun cs entry => Sheet.ColumnsText cs entry.2) readRow Sheet.row where
  shrinks := Sheet.ColumnsText.length_lt
  value_eq {cs entry rest} spelled := by
    rw [readRow, reads_column.object_eq .row spelled, Sheet.row]
    cases entry.2.mapM Sheet.column <;> rfl

theorem exists_read_text (doc : Document) : ∃ rest, read doc.text.toList = .ok (doc, rest) := by
  obtain ⟨rest, rows, -⟩ := doc.toSheet.spelledBy_text
  have meaning : doc.toSheet.toDocument = .ok doc := Sheet.toDocument_eq_ok_iff.mpr rfl
  refine ⟨rest, ?_⟩
  rw [text, read, reads_row.object_eq .document rows]
  show (doc.toSheet.toDocument).map (·, rest) = _
  rw [meaning]
  rfl

end Document

namespace Dfa

variable {s : Sheet} {d : Dfa} {text : String}

/-- From a spelling of a sheet the table of its document is read. -/
theorem parse_of_spelledBy (spelled : s.SpelledBy text) :
    parse text = s.toDocument.bind fun doc => doc.toDfa.mapError .table := by
  obtain ⟨rest, rows, spaced⟩ := spelled
  rw [parse, Document.read, Document.reads_row.object_eq .document rows]
  show ((s.toDocument).map (·, rest) >>= _) = _
  cases s.toDocument with
  | error e => rfl
  | ok doc =>
    show (doc.toDfa.mapError DocumentError.table >>= fun d => _) = doc.toDfa.mapError .table
    rw [Json.skipSpace_of_spaced spaced]
    exact bind_pure _

theorem parse_eq_ok_iff (spelled : s.SpelledBy text) :
    parse text = .ok d ↔ ∃ doc : Document, doc.toSheet = s ∧ doc.toDfa = .ok d := by
  rw [parse_of_spelledBy spelled, bind_eq_ok_iff]
  simp only [Sheet.toDocument_eq_ok_iff, mapError_eq_ok_iff]

/-- From the text of a document the table that it describes is read. -/
theorem parse_text (doc : Document) : parse doc.text = doc.toDfa.mapError .table := by
  have read : doc.toSheet.toDocument = .ok doc := Sheet.toDocument_eq_ok_iff.mpr rfl
  rw [Document.text, parse_of_spelledBy doc.toSheet.spelledBy_text, read]
  rfl

end Dfa

end FiniteAutomata
