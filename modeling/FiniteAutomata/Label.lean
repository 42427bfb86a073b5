import FiniteAutomata.Text.Quoted

/-!
State labels: a number, as given out by automatic labelling, or a name chosen by the author of an
automaton. The number `1` and the name `1` are different labels with the same text. The heading of a
row of a table is a label behind its marks.
-/

namespace FiniteAutomata

universe u v

inductive Label where
  | number (n : Nat)
  | name (text : String)
deriving DecidableEq

namespace Label

def text : Label → String
  | number n => n.repr
  | name s => s

/-- The text that tells numbers and names apart. -/
def describe : Label → String
  | number n => s!"Index({n})"
  | name s => s!"Name({Text.quoted s})"

/-- Numbers come before names; numbers are ordered by value and names by code points. -/
instance : Ord Label where
  compare
    | number m, number n => compare m n
    | number _, name _ => .lt
    | name _, number _ => .gt
    | name s, name t => compare s t

theorem compare_number (m n : Nat) : compare (number m) (number n) = compare m n := rfl

theorem compare_name (s t : String) : compare (name s) (name t) = compare s t := rfl

instance : Std.TransOrd Label where
  eq_swap {a b} := by
    cases a <;> cases b
    · rw [compare_number, compare_number]
      exact Std.OrientedOrd.eq_swap
    · rfl
    · rfl
    · rw [compare_name, compare_name]
      exact Std.OrientedOrd.eq_swap
  isLE_trans {a b c} h h' := by
    cases a <;> cases b <;> cases c
    · rw [compare_number] at *
      exact Std.TransCmp.isLE_trans h h'
    · rfl
    · cases h'
    · rfl
    · cases h
    · cases h
    · cases h'
    · rw [compare_name] at *
      exact Std.TransCmp.isLE_trans h h'

instance : Std.LawfulEqOrd Label where
  eq_of_compare {a b} h := by
    cases a <;> cases b
    · exact congrArg number (Std.LawfulEqOrd.eq_of_compare h)
    · cases h
    · cases h
    · exact congrArg name (Std.LawfulEqOrd.eq_of_compare h)

end Label

/-! ### Headings -/

/-- The heading of a row: a label, with the marks `->` of a starting and `*` of an accepting state in
front of it. -/
structure Heading (α : Type u) where
  label : α
  starts : Bool
  accepts : Bool
deriving DecidableEq

namespace Heading

variable {α : Type u} {β : Type v}

def withLabel (h : Heading α) (label : β) : Heading β := ⟨label, h.starts, h.accepts⟩

/-- The marks of a heading as they are written. -/
def marks (h : Heading α) : List Char :=
  (if h.starts then ['-', '>'] else []) ++ (if h.accepts then ['*'] else [])

def text (h : Heading String) : String := String.ofList (h.marks ++ h.label.toList)

/-- Takes a leading `->` off a text. -/
def takeStart : List Char → Bool × List Char
  | '-' :: '>' :: rest => (true, rest)
  | cs => (false, cs)

/-- Takes a leading `*` off a text. -/
def takeAccept : List Char → Bool × List Char
  | '*' :: rest => (true, rest)
  | cs => (false, cs)

/-- Reads at most one `->` and then at most one `*`; what remains is the label. -/
def parse (s : String) : Heading String :=
  let (starts, rest) := takeStart s.toList
  let (accepts, label) := takeAccept rest
  ⟨String.ofList label, starts, accepts⟩

end Heading

end FiniteAutomata
