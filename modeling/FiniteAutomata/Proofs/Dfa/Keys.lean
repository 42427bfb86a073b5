import FiniteAutomata.Proofs.Dfa.Documents

/-!
Rows looked up by the keys of their document. A key is looked for as a label first, with its marks
taken as part of the label, and only then behind its marks. So it finds the row that was read from it
unless it is itself the label of another row (`get?_key`).
-/

namespace FiniteAutomata

namespace Document

variable {doc : Document} {d : Dfa} {i j : Nat} {key label : String} {columns : Columns}

/-- The row that is read from the entry at a position has the label. -/
def LabelAt (doc : Document) (i : Nat) (label : String) : Prop :=
  ∃ entry, doc[i]? = some entry ∧ Heading.plainLabel entry.1 = label

variable (made : doc.toDfa = .ok d)
include made

theorem index?_of_toDfa : d.index? label = some i ↔ doc.LabelAt i label := by
  rw [Dfa.index?_eq_some_iff, rows_of_toDfa made, List.getElem?_map]
  unfold LabelAt
  cases doc[i]? with
  | none => simp
  | some entry => simp [row, Heading.label_parse]

theorem get?_of_labelAt (named : doc.LabelAt j key) : d.get? key = d.rows[j]? := by
  have found := (index?_of_toDfa made).mpr named
  simp [Dfa.get?, found]

/-- If no row has the whole key as its label, the marks are taken off. -/
theorem get?_of_forall_not_labelAt (listed : doc[i]? = some (key, columns))
    (unnamed : ∀ j, ¬ doc.LabelAt j key) : d.get? key = d.rows[i]? := by
  have absent : d.index? key = none := by
    rw [Option.eq_none_iff_forall_ne_some]
    exact fun j found => unnamed j ((index?_of_toDfa made).mp found)
  have found : d.index? (Heading.parse key).label = some i := by
    rw [index?_of_toDfa made, Heading.label_parse]
    exact ⟨_, listed, rfl⟩
  simp [Dfa.get?, absent, found]

theorem get?_iff_labelAt (listed : doc[i]? = some (key, columns)) :
    d.get? key = d.rows[i]? ↔ ∀ j, doc.LabelAt j key → j = i := by
  constructor
  · intro same j named
    have row := row_of_toDfa made listed
    rw [get?_of_labelAt made named, row] at same
    have first := Dfa.index?_label row
    rw [Dfa.index?_label same] at first
    exact Option.some.inj first
  · intro only
    by_cases named : ∃ j, doc.LabelAt j key
    · obtain ⟨j, named⟩ := named
      rw [get?_of_labelAt made named, only j named]
    · exact get?_of_forall_not_labelAt made listed (not_exists.mp named)

end Document

namespace Dfa

/-- In a table that was read from a text, the key of an entry finds the row of the entry, unless the
whole key is the label of another row. Then it finds that row. -/
theorem get?_key {text : String} {d : Dfa} (made : parse text = .ok d) : ∃ doc rest,
    Document.read text.toList = .ok (doc, rest) ∧
    ∀ (i : Nat) key columns, doc[i]? = some (key, columns) →
      d.rows[i]? = some (Document.row d.alphabet key columns) ∧
      (d.get? key = some (Document.row d.alphabet key columns) ↔
        ∀ j, doc.LabelAt j key → j = i) ∧
      ∀ j, doc.LabelAt j key → ∃ r, d.rows[j]? = some r ∧ d.get? key = some r := by
  obtain ⟨doc, rest, read, table⟩ := exists_read_of_parse made
  refine ⟨doc, rest, read, fun i key columns listed => ?_⟩
  have row := Document.row_of_toDfa table listed
  rw [← Document.alphabet_of_toDfa table] at row
  refine ⟨row, ?_, fun j named => ?_⟩
  · rw [← row]
    exact Document.get?_iff_labelAt table listed
  · obtain ⟨r, row', -⟩ := index?_eq_some_iff.mp ((Document.index?_of_toDfa table).mpr named)
    exact ⟨r, row', (Document.get?_of_labelAt table named).trans row'⟩

/-- The key of the first entry is the label of the second. -/
def doubled : Document := [("->q", [('a', none)]), ("->->q", [('a', some "q")])]

def doubledRows : Dfa where
  alphabet := ['a']
  rows := [⟨⟨"q", true, false⟩, [none]⟩, ⟨⟨"->q", true, false⟩, [some "q"]⟩]
  length_targets := by decide
  nodup_labels := by decide

theorem parse_doubled : parse doubled.text = .ok doubledRows := by
  have made : doubled.toDfa = .ok doubledRows := ofRows_eq_ok_iff.mpr ⟨by decide, by decide⟩
  rw [parse_text, mapError_eq_ok_iff, made]

theorem get?_key_doubled : parse doubled.text = .ok doubledRows ∧ ∃ doc rest,
    Document.read doubled.text.toList = .ok (doc, rest) ∧
    ∀ (i : Nat) key columns, doc[i]? = some (key, columns) →
      doubledRows.rows[i]? = some (Document.row doubledRows.alphabet key columns) ∧
      (doubledRows.get? key = some (Document.row doubledRows.alphabet key columns) ↔
        ∀ j, doc.LabelAt j key → j = i) ∧
      ∀ j, doc.LabelAt j key → ∃ r, doubledRows.rows[j]? = some r ∧ doubledRows.get? key = some r :=
  ⟨parse_doubled, get?_key parse_doubled⟩

/-- The key of the first entry of `doubled` finds the second row. -/
theorem not_get?_key : ¬ ∀ (text : String) (d : Dfa) (doc : Document) (rest : List Char),
    parse text = .ok d → Document.read text.toList = .ok (doc, rest) →
    ∀ (i : Nat) key columns, doc[i]? = some (key, columns) →
      d.get? key = some (Document.row d.alphabet key columns) := by
  intro finds
  obtain ⟨rest, read⟩ := doubled.exists_read_text
  have found := finds _ _ _ rest parse_doubled read 0 "->q" _ rfl
  exact absurd found (by decide)

end Dfa

end FiniteAutomata
