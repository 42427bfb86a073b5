import FiniteAutomata.Decimal.Shortest
import FiniteAutomata.Dfa.Document
import FiniteAutomata.Json.Number
import FiniteAutomata.Text.Quoted

/-!
Reading documents from text. A document is read from left to right and the first fault is
reported; that two rows share a label is found when the last row has been read.
-/

namespace FiniteAutomata

/-- The parts of a document that have to be of a certain kind. -/
inductive Document.Part where
  | document
  | row
  | target
deriving DecidableEq

def Document.Part.expectation : Part → String
  | document => "a map from row labels to columns"
  | row => "a map from symbols to state labels or null"
  | target => "a string"

/-- A value of a kind that cannot stand in its place. -/
inductive Document.Found where
  | null
  | boolean (b : Bool)
  | integer (n : Int)
  | float (text : String)
  | string (s : String)
  | sequence
  | map
deriving DecidableEq

def Document.Found.text : Found → String
  | null => "null"
  | boolean b => s!"boolean `{b}`"
  | integer n => s!"integer `{n}`"
  | float x => s!"floating point `{x}`"
  | string s => "string " ++ Text.quoted s
  | sequence => "sequence"
  | map => "map"

/-- Why a text is not the document of a table. -/
inductive DocumentError where
  | fault (f : Json.Fault)
  | wrongKind (found : Document.Found) (part : Document.Part)
  | notSymbol (column : String)
  | table (e : TableError)
deriving DecidableEq

/-- The wording of what is wrong with a well-formed text. -/
def DocumentError.message? : DocumentError → Option String
  | fault _ => none
  | wrongKind found part => some s!"invalid type: {found.text}, expected {part.expectation}"
  | notSymbol column => some s!"column {column} is not a single symbol"
  | table e => some e.message

namespace Document

/-- The start of a value of the wrong kind, as far as it has to be read to be named. -/
def found (cs : List Char) : Except Json.Fault Found := do
  match cs with
  | [] => throw .unfinished
  | 'n' :: cs => let _ ← Json.expect ['u', 'l', 'l'] cs; return .null
  | 't' :: cs => let _ ← Json.expect ['r', 'u', 'e'] cs; return .boolean true
  | 'f' :: cs => let _ ← Json.expect ['a', 'l', 's', 'e'] cs; return .boolean false
  | '"' :: cs => return .string (← Json.stringRest cs).1
  | '[' :: _ => return .sequence
  | '\x7b' :: _ => return .map
  | '-' :: cs => return number (← Json.Number.read true cs).1
  | c :: cs =>
    if Json.Number.isDigit c then return number (← Json.Number.read false (c :: cs)).1
    else throw .malformed
where
  number : Json.Number → Found
    | .integer n => .integer n
    | .float x => .float (Decimal.text x)

def ofFault {α : Type} : Except Json.Fault α → Except DocumentError α := Except.mapError .fault

def wrongKind {α : Type} (part : Part) (cs : List Char) : Except DocumentError α := do
  throw (.wrongKind (← ofFault (found cs)) part)

/-- Reads the entries of an object, whose opening brace has been read, with `value` for what stands
behind a key. Every entry takes at least one of `limit`. -/
def entries {α : Type} (value : String → List Char → Except DocumentError (α × List Char)) :
    (limit : Nat) → (first : Bool) → List Char → Except DocumentError (List α × List Char)
  | 0, _, _ => .error (.fault .unfinished)
  | limit + 1, first, cs => do
    match ← ofFault (Json.nextKey first cs) with
    | (none, cs) => return ([], cs)
    | (some key, cs) =>
      let (x, cs) ← value key cs
      let (xs, cs) ← entries value limit false cs
      return (x :: xs, cs)

def object {α : Type} (part : Part)
    (value : String → List Char → Except DocumentError (α × List Char)) (cs : List Char) :
    Except DocumentError (List α × List Char) :=
  match Json.skipSpace cs with
  | '\x7b' :: cs => entries value (cs.length + 1) true cs
  | cs => wrongKind part cs

def readTarget (cs : List Char) : Except DocumentError (Option String × List Char) :=
  match Json.skipSpace cs with
  | 'n' :: cs => return (none, ← ofFault (Json.expect ['u', 'l', 'l'] cs))
  | '"' :: cs => do
    let (label, cs) ← ofFault (Json.stringRest cs)
    return (some label, cs)
  | cs => wrongKind .target cs

/-- Reads the target of a column. The key is looked at afterwards. -/
def readColumn (key : String) (cs : List Char) :
    Except DocumentError ((Char × Option String) × List Char) := do
  let (target, cs) ← readTarget cs
  match key.toList with
  | [c] => return ((c, target), cs)
  | _ => throw (.notSymbol key)

def readRow (key : String) (cs : List Char) :
    Except DocumentError ((String × Columns) × List Char) := do
  let (columns, cs) ← object .row readColumn cs
  return ((key, columns), cs)

/-- Reads a document and returns what follows it. -/
def read (cs : List Char) : Except DocumentError (Document × List Char) :=
  object .document readRow cs

end Document

/-- Reads the table of a document. Only space may follow the document. -/
def Dfa.parse (text : String) : Except DocumentError Dfa := do
  let (doc, rest) ← Document.read text.toList
  let d ← doc.toDfa.mapError .table
  if Json.skipSpace rest ≠ [] then throw (.fault .malformed)
  return d

end FiniteAutomata
