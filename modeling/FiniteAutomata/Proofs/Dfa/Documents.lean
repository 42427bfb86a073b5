import FiniteAutomata.Proofs.Dfa.Reading
import FiniteAutomata.Proofs.Dfa.Writing
import FiniteAutomata.Proofs.Occurrence
import Mathlib.Data.Set.List

/-!
What is read from a sheet of rows and columns. The keys of the columns have to be symbols and the
keys of the rows different behind their marks; then the rows of the table are those of the sheet,
and the symbols of all rows are columns of every row.
-/

namespace FiniteAutomata

/-! ### Keys of rows -/

namespace Heading

/-- A text without a mark that may stand in front of it. -/
def dropMark (mark cs : List Char) : List Char := if mark <+: cs then cs.drop mark.length else cs

/-- What is left of a key behind `->`, if it begins so, and then behind `*`, if it goes on so. -/
def plainLabel (key : String) : String :=
  String.ofList (dropMark ['*'] (dropMark ['-', '>'] key.toList))

theorem takeStart_eq (cs : List Char) :
    takeStart cs = (decide (['-', '>'] <+: cs), dropMark ['-', '>'] cs) := by
  by_cases marked : ['-', '>'] <+: cs
  · obtain ⟨rest, rfl⟩ := marked
    simp [takeStart, dropMark]
  · rw [takeStart_eq_false_iff.mpr ⟨marked, rfl⟩, dropMark, if_neg marked, decide_eq_false marked]

theorem takeAccept_eq (cs : List Char) :
    takeAccept cs = (decide (['*'] <+: cs), dropMark ['*'] cs) := by
  by_cases marked : ['*'] <+: cs
  · obtain ⟨rest, rfl⟩ := marked
    simp [takeAccept, dropMark]
  · rw [takeAccept_eq_false_iff.mpr ⟨marked, rfl⟩, dropMark, if_neg marked, decide_eq_false marked]

theorem append_dropMark (mark cs : List Char) :
    (if decide (mark <+: cs) = true then mark else []) ++ dropMark mark cs = cs := by
  by_cases marked : mark <+: cs
  · obtain ⟨rest, rfl⟩ := marked
    simp [dropMark]
  · simp [dropMark, marked]

theorem label_parse (key : String) : (parse key).label = plainLabel key := by
  rw [parse, takeStart_eq]
  dsimp only
  rw [takeAccept_eq]
  rfl

/-- A heading that has been read is written as it was. -/
theorem text_parse (key : String) : (parse key).text = key := by
  rw [parse, takeStart_eq]
  dsimp only
  rw [takeAccept_eq]
  dsimp only
  rw [text, marks, String.toList_ofList, List.append_assoc, append_dropMark, append_dropMark,
    String.ofList_toList]

end Heading

/-! ### Keys of columns -/

theorem exists_map_eq_iff {α β : Type} {f : α → β} {xs : List β} :
    (∃ ys : List α, ys.map f = xs) ↔ ∀ x ∈ xs, ∃ y, f y = x :=
  Set.ext_iff.mp (Set.range_list_map f) xs

theorem exists_toString_eq_iff {key : String} : (∃ c : Char, c.toString = key) ↔ key.length = 1 := by
  constructor
  · rintro ⟨c, rfl⟩
    rw [Char.toString_eq_singleton, String.length_singleton]
  · intro single
    rw [← String.length_toList, List.length_eq_one_iff] at single
    obtain ⟨c, same⟩ := single
    refine ⟨c, ?_⟩
    rw [← String.toList_inj, same, Char.toString_eq_singleton, String.toList_singleton]

theorem toString_inj {b c : Char} : b.toString = c.toString ↔ b = c := by
  rw [Char.toString_eq_singleton, Char.toString_eq_singleton, String.singleton_inj]

/-! ### Tables of documents -/

namespace Document

variable {doc : Document} {d : Dfa} {i : Nat} {key : String} {columns : Columns} {c : Char}

theorem mem_alphabet : c ∈ doc.alphabet ↔ ∃ entry ∈ doc, ∃ column ∈ entry.2, column.1 = c := by
  simp only [alphabet, List.mem_eraseDups, List.mem_flatMap, List.mem_map]

theorem targetIn_eq (columns : Columns) (c : Char) :
    targetIn columns c = (columns.find? (·.1 = c)).bind (·.2) := by
  rw [targetIn]
  cases columns.find? (·.1 = c) <;> rfl

/-- A document describes a table if no two rows have the same label. -/
theorem exists_toDfa_iff : (∃ d, doc.toDfa = .ok d) ↔
    (doc.map fun entry => Heading.plainLabel entry.1).Nodup := by
  have labels : (doc.map fun entry => row doc.alphabet entry.1 entry.2).map (·.heading.label) =
      doc.map fun entry => Heading.plainLabel entry.1 := by
    rw [List.map_map]
    exact List.map_congr_left fun entry _ => Heading.label_parse entry.1
  rw [← labels, toDfa_eq]
  constructor
  · rintro ⟨d, made⟩
    rw [← (Dfa.ofRows_eq_ok_iff.mp made).2]
    exact d.nodup_labels
  · intro distinct
    refine ⟨⟨doc.alphabet, _, fun r member => ?_, distinct⟩, Dfa.ofRows_eq_ok_iff.mpr ⟨rfl, rfl⟩⟩
    obtain ⟨entry, -, rfl⟩ := List.mem_map.mp member
    exact List.length_map _

variable (made : doc.toDfa = .ok d)
include made

theorem alphabet_of_toDfa : d.alphabet = doc.alphabet := by
  rw [toDfa_eq] at made
  exact (Dfa.ofRows_eq_ok_iff.mp made).1

theorem rows_of_toDfa :
    d.rows = doc.map fun entry => row doc.alphabet entry.1 entry.2 := by
  rw [toDfa_eq] at made
  exact (Dfa.ofRows_eq_ok_iff.mp made).2

theorem size_of_toDfa : d.size = doc.length := by
  rw [Dfa.size, rows_of_toDfa made, List.length_map]

theorem row_of_toDfa (entry : doc[i]? = some (key, columns)) :
    d.rows[i]? = some (row doc.alphabet key columns) := by
  rw [rows_of_toDfa made, List.getElem?_map, entry, Option.map_some]

/-- A row has the target under its first column of a symbol, and none on a symbol that only other
rows have. -/
theorem target?_of_toDfa (entry : doc[i]? = some (key, columns)) (c : Char) :
    d.target? i c = targetIn columns c := by
  have alphabet := alphabet_of_toDfa made
  by_cases member : c ∈ d.alphabet
  · refine Dfa.target?_of_map (row_of_toDfa made entry) ?_ member
    rw [alphabet]
    rfl
  · have absent : columns.find? (·.1 = c) = none := by
      rw [List.find?_eq_none]
      intro column listed same
      rw [alphabet, mem_alphabet] at member
      exact member ⟨_, List.mem_of_getElem? entry, column, listed, of_decide_eq_true same⟩
    rw [Dfa.target?_of_not_mem member, targetIn_eq, absent, Option.bind_none]

theorem target_of_toDfa (entry : doc[i]? = some (key, columns)) (c : Char) :
    d.target i c = .ok (targetIn columns c) := by
  have inside : ¬ d.size ≤ i := by
    rw [size_of_toDfa made, Nat.not_le]
    exact (List.getElem?_eq_some_iff.mp entry).1
  rw [Dfa.target, if_neg fun outside => inside outside.2, target?_of_toDfa made entry]

end Document

/-! ### Sheets -/

namespace Sheet

variable {s : Sheet} {doc : Document} {d : Dfa}

/-- The keys of all columns are symbols. -/
def Symbolic (s : Sheet) : Prop := ∀ entry ∈ s, ∀ column ∈ entry.2, column.1.length = 1

/-- The table has a row for every row of the sheet, in the same order and under the same key, and a
column for every symbol of the sheet. -/
structure Tabulates (s : Sheet) (d : Dfa) : Prop where
  size : d.size = s.length
  heading : ∀ (i : Nat) entry, s[i]? = some entry → ∃ r, d.rows[i]? = some r ∧
    r.heading.text = entry.1 ∧ r.heading.label = Heading.plainLabel entry.1
  alphabet : d.alphabet.map Char.toString =
    (s.flatMap fun entry => entry.2.map (·.1)).eraseDups
  target : ∀ (i : Nat) entry, s[i]? = some entry → ∀ c : Char,
    d.target i c = .ok ((entry.2.find? (·.1 = c.toString)).bind (·.2))

theorem exists_toSheet_eq_iff : (∃ doc : Document, doc.toSheet = s) ↔ s.Symbolic := by
  have column (x : String × Option String) :
      (∃ y : Char × Option String, (y.1.toString, y.2) = x) ↔ x.1.length = 1 := by
    rw [← exists_toString_eq_iff]
    constructor
    · rintro ⟨y, rfl⟩
      exact ⟨y.1, rfl⟩
    · rintro ⟨c, same⟩
      exact ⟨(c, x.2), Prod.ext same rfl⟩
  have entry (x : String × List (String × Option String)) :
      (∃ y : String × Columns, (y.1, y.2.map fun column => (column.1.toString, column.2)) = x) ↔
        ∀ column ∈ x.2, column.1.length = 1 := by
    simp only [← column, ← exists_map_eq_iff]
    constructor
    · rintro ⟨y, rfl⟩
      exact ⟨y.2, rfl⟩
    · rintro ⟨columns, same⟩
      exact ⟨(x.1, columns), Prod.ext rfl same⟩
  simp only [Symbolic, ← entry]
  exact exists_map_eq_iff

theorem find?_toSheet (columns : Columns) (c : Char) :
    ((columns.map fun column => (column.1.toString, column.2)).find? (·.1 = c.toString)).bind (·.2) =
      Document.targetIn columns c := by
  rw [Document.targetIn_eq, List.find?_map, Option.bind_map]
  simp only [Function.comp_def, toString_inj]

theorem alphabet_toSheet (doc : Document) : doc.alphabet.map Char.toString =
    (doc.toSheet.flatMap fun entry => entry.2.map (·.1)).eraseDups := by
  have symbols : (doc.toSheet.flatMap fun entry => entry.2.map (·.1)) =
      (doc.flatMap fun entry => entry.2.map (·.1)).map Char.toString := by
    rw [Document.toSheet, List.flatMap_map, List.map_flatMap]
    refine List.flatMap_congr fun entry _ => ?_
    show (entry.2.map _).map _ = (entry.2.map _).map _
    rw [List.map_map, List.map_map]
    rfl
  rw [symbols, eraseDups_map fun b _ c _ => toString_inj.mp]
  rfl

/-- The table that a document describes has the rows of the sheet that it stands on. -/
theorem tabulates_of_toDfa (made : doc.toDfa = .ok d) : doc.toSheet.Tabulates d := by
  have written {i : Nat} {entry : String × List (String × Option String)}
      (listed : doc.toSheet[i]? = some entry) : ∃ columns : Columns,
        doc[i]? = some (entry.1, columns) ∧
          entry.2 = columns.map fun column => (column.1.toString, column.2) := by
    rw [Document.toSheet, List.getElem?_map, Option.map_eq_some_iff] at listed
    obtain ⟨⟨key, columns⟩, listed, rfl⟩ := listed
    exact ⟨columns, listed, rfl⟩
  constructor
  · rw [Document.size_of_toDfa made, Document.toSheet, List.length_map]
  · intro i entry listed
    obtain ⟨columns, listed, -⟩ := written listed
    exact ⟨_, Document.row_of_toDfa made listed, Heading.text_parse _, Heading.label_parse _⟩
  · rw [Document.alphabet_of_toDfa made, alphabet_toSheet]
  · intro i entry listed c
    obtain ⟨columns, listed, same⟩ := written listed
    rw [Document.target_of_toDfa made listed, same, find?_toSheet]

end Sheet

/-- A table is read from a sheet, however it is spelled, if and only if the keys of all columns are
symbols and no two keys of rows have the same label behind their marks. It is the table of the
sheet: columns may come in any order, be missing or be repeated. -/
theorem Dfa.parse_spelledBy {s : Sheet} {text : String} (spelled : s.SpelledBy text) :
    ((∃ d, parse text = .ok d) ↔
      s.Symbolic ∧ (s.map fun entry => Heading.plainLabel entry.1).Nodup) ∧
    ∀ d, parse text = .ok d → s.Tabulates d := by
  simp only [parse_eq_ok_iff spelled]
  have labels (doc : Document) : (doc.toSheet.map fun entry => Heading.plainLabel entry.1) =
      doc.map fun entry => Heading.plainLabel entry.1 := by
    rw [Document.toSheet, List.map_map]
    rfl
  refine ⟨?_, ?_⟩
  · rw [← Sheet.exists_toSheet_eq_iff]
    constructor
    · rintro ⟨d, doc, rfl, made⟩
      rw [labels]
      exact ⟨⟨doc, rfl⟩, Document.exists_toDfa_iff.mp ⟨d, made⟩⟩
    · rintro ⟨⟨doc, rfl⟩, distinct⟩
      rw [labels] at distinct
      obtain ⟨d, made⟩ := Document.exists_toDfa_iff.mpr distinct
      exact ⟨d, doc, rfl, made⟩
  · rintro d ⟨doc, rfl, made⟩
    exact Sheet.tabulates_of_toDfa made

/-- Three rows: a symbol with two targets, no columns behind two marks, and a symbol that comes late
in front of one that comes early, with the target of a row that is not there. -/
def ragged : Sheet :=
  [("->1", [("b", some "3"), ("b", none)]), ("->**2", []), ("3", [("a", some "*2"), ("b", some "7")])]

theorem Dfa.parse_spelledBy_ragged : ragged.SpelledBy ragged.text ∧
    ((∃ d, parse ragged.text = .ok d) ↔
      ragged.Symbolic ∧ (ragged.map fun entry => Heading.plainLabel entry.1).Nodup) ∧
    ∀ d, parse ragged.text = .ok d → ragged.Tabulates d :=
  ⟨ragged.spelledBy_text, Dfa.parse_spelledBy ragged.spelledBy_text⟩

example : ((Dfa.parse ragged.text).toOption.map fun d => (d.alphabet, d.rows)) = some (['b', 'a'], [
    ⟨⟨"1", true, false⟩, [some "3", none]⟩,
    ⟨⟨"*2", true, true⟩, [none, none]⟩,
    ⟨⟨"3", false, false⟩, [some "7", some "*2"]⟩]) := by decide +kernel

end FiniteAutomata
