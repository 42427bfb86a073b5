import FiniteAutomata.Dfa.Basic
import FiniteAutomata.Json.Text

/-!
Documents: tables as they are written down. A document lists rows under their headings with marks,
and in every row targets under symbols. A symbol may be missing from a row or be listed twice.
-/

namespace FiniteAutomata

/-- Rows of targets under arbitrary keys, as they stand in a JSON object of objects. -/
abbrev Sheet := List (String × List (String × Option String))

/-- The columns of one row. -/
abbrev Columns := List (Char × Option String)

/-- Rows with their headings, in order. -/
abbrev Document := List (String × Columns)

namespace Sheet

def targetJson : Option String → List Char
  | some label => Json.string label
  | none => "null".toList

def text (s : Sheet) : String :=
  String.ofList <| Json.object <| s.map fun (heading, columns) =>
    (heading, Json.object <| columns.map fun (key, target) => (key, targetJson target))

end Sheet

namespace Document

/-- A document on a sheet, every symbol being a key of one character. -/
def toSheet (doc : Document) : Sheet :=
  doc.map fun (heading, columns) => (heading, columns.map fun (c, target) => (c.toString, target))

/-- The symbols of all columns in order of first occurrence. -/
def alphabet (doc : Document) : List Char :=
  (doc.flatMap fun (_, columns) => columns.map (·.1)).eraseDups

/-- The target under the first column of a symbol. -/
def targetIn (columns : Columns) (c : Char) : Option String :=
  match columns.find? (·.1 = c) with
  | some (_, target) => target
  | none => none

/-- The row of a table that an entry stands for. -/
def row (alphabet : List Char) (heading : String) (columns : Columns) : Dfa.Row :=
  ⟨Heading.parse heading, alphabet.map (targetIn columns)⟩

def toDfa (doc : Document) : Except TableError Dfa :=
  Dfa.ofRows doc.alphabet (doc.map fun (heading, columns) => row doc.alphabet heading columns)

def text (doc : Document) : String := doc.toSheet.text

end Document

namespace Dfa

def toDocument (d : Dfa) : Document :=
  d.rows.map fun r => (r.heading.text, d.alphabet.zip r.targets)

/-- The lines of a table, one for every target. -/
def display (d : Dfa) : String :=
  String.join <| d.rows.flatMap fun r => (d.alphabet.zip r.targets).filterMap fun (c, target) =>
    target.map fun label => s!"{r.heading.text} --{c}--> {label}\n"

end Dfa

end FiniteAutomata
