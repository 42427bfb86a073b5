/-!
Finite sets kept as strictly increasing lists. Two sets with the same elements are equal values,
so a set can serve as the key of a subset of states and as the text of its row.
-/

namespace FiniteAutomata

universe u

/-- A finite set, its elements in increasing order. -/
structure SortedSet (α : Type u) where
  elements : List α
deriving DecidableEq

namespace SortedSet

variable {α : Type u}

def empty : SortedSet α := ⟨[]⟩

def size (s : SortedSet α) : Nat := s.elements.length

def isEmpty (s : SortedSet α) : Bool := s.elements.isEmpty

def text (write : α → String) (s : SortedSet α) : String :=
  ",".intercalate (s.elements.map write)

def describe (describe : α → String) (s : SortedSet α) : String :=
  "\x7b" ++ ", ".intercalate (s.elements.map describe) ++ "\x7d"

variable [Ord α]

def contains (s : SortedSet α) (x : α) : Bool := s.elements.any (compare x · == .eq)

/-- Puts `x` in front of the first greater element, unless an equal one is met before. -/
def insertInto (x : α) : List α → List α
  | [] => [x]
  | y :: ys =>
    match compare x y with
    | .lt => x :: y :: ys
    | .eq => y :: ys
    | .gt => y :: insertInto x ys

def insert (s : SortedSet α) (x : α) : SortedSet α := ⟨insertInto x s.elements⟩

/-- Inserts an element and says whether it is new. -/
def add (s : SortedSet α) (x : α) : Bool × SortedSet α := (!s.contains x, s.insert x)

def insertMany (s : SortedSet α) (xs : List α) : SortedSet α := xs.foldl insert s

def union (s t : SortedSet α) : SortedSet α := s.insertMany t.elements

/-- Merges two increasing lists; an element of both is kept once. -/
def merge : List α → List α → List α
  | [], ys => ys
  | xs, [] => xs
  | x :: xs, y :: ys =>
    match compare x y with
    | .lt => x :: merge xs (y :: ys)
    | .eq => x :: merge xs ys
    | .gt => y :: merge (x :: xs) ys
termination_by xs ys => xs.length + ys.length

/-- Sorts the halves of a list and merges them, so that repeated elements are dropped. -/
def sort (xs : List α) : List α :=
  if xs.length ≤ 1 then xs
  else merge (sort (xs.take (xs.length / 2))) (sort (xs.drop (xs.length / 2)))
termination_by xs.length
decreasing_by
  · rw [List.length_take]
    omega
  · rw [List.length_drop]
    omega

def ofList (xs : List α) : SortedSet α := ⟨sort xs⟩

/-- Sets are ordered as their lists of elements: by the first difference, then by length. -/
instance : Ord (SortedSet α) := ⟨fun s t => compare s.elements t.elements⟩

theorem compare_def (s t : SortedSet α) : compare s t = compare s.elements t.elements := rfl

instance [Std.TransOrd α] : Std.TransOrd (SortedSet α) where
  eq_swap {s t} := by
    rw [compare_def, compare_def]
    exact Std.OrientedOrd.eq_swap
  isLE_trans {s t u} h h' := by
    rw [compare_def] at *
    exact Std.TransCmp.isLE_trans h h'

instance [Std.LawfulEqOrd α] : Std.LawfulEqOrd (SortedSet α) where
  compare_self {s} := (compare_def s s).trans Std.ReflOrd.compare_self
  eq_of_compare h := congrArg mk (Std.LawfulEqOrd.eq_of_compare h)

end SortedSet

end FiniteAutomata
