import FiniteAutomata.Occurrence

/-!
Breadth-first search in a graph whose nodes have at most one successor on every symbol. Nodes are
expanded in the order in which they are first met, the start first. A search for items made from
nodes and their successors can end with the first item whose name is that of an item before it; up
to there it lists the same (`itemsUpToRepeat_eq`).
-/

namespace FiniteAutomata.Search

universe u v w

/-! ### Queues -/

/-- A first-in, first-out queue. Its back is kept in reverse, so that items join it without going through
those before them; `toList` has its items in order. -/
structure Queue (α : Type u) where
  front : List α
  back : List α := []

namespace Queue

variable {α : Type u}

def toList (q : Queue α) : List α := q.front ++ q.back.reverse

/-- Items join the queue, the first of them first. -/
def append (q : Queue α) (xs : List α) : Queue α := { q with back := xs.reverseAux q.back }

def next? (q : Queue α) : Option (α × Queue α) :=
  match q.front with
  | x :: front => some (x, { q with front })
  | [] =>
    match q.back.reverse with
    | x :: front => some (x, ⟨front, []⟩)
    | [] => none

theorem toList_append (q : Queue α) (xs : List α) : (q.append xs).toList = q.toList ++ xs := by
  simp [append, toList, List.reverseAux_eq]

theorem toList_of_next?_eq_none {q : Queue α} (h : q.next? = none) : q.toList = [] := by
  obtain ⟨front, back⟩ := q
  cases front with
  | cons x front => cases h
  | nil =>
    dsimp only [next?] at h
    split at h
    · cases h
    · next empty => rw [toList, empty, List.nil_append]

theorem toList_of_next?_eq_some {q rest : Queue α} {x : α} (h : q.next? = some (x, rest)) :
    q.toList = x :: rest.toList := by
  obtain ⟨front, back⟩ := q
  cases front with
  | cons y front =>
    cases h
    rfl
  | nil =>
    dsimp only [next?] at h
    split at h
    · next items =>
      cases h
      rw [toList, items, toList, List.reverse_nil, List.append_nil, List.nil_append]
    · cases h

end Queue

/-! ### Searches -/

variable {α : Type u} {β : Type v} {γ : Type w} [Ord α] [Ord β]

/-- The nodes of a list that are not known, each once, and what is known after them. -/
def discover (known : Std.TreeSet α) : List α → List α × Std.TreeSet α
  | [] => ([], known)
  | x :: xs =>
    if x ∈ known then discover known xs
    else
      let (fresh, known) := discover (known.insert x) xs
      (x :: fresh, known)

/-- Expands at most `rounds` nodes of a queue of known nodes. New successors are known from then on
and join the queue. Every expanded node is listed with its successors. -/
def expand (next : α → List (Option α)) :
    (rounds : Nat) → (known : Std.TreeSet α) → (queue : List α) → List (α × List (Option α))
  | 0, _, _ => []
  | _ + 1, _, [] => []
  | rounds + 1, known, x :: queue =>
    let successors := next x
    let (fresh, known) := discover known (successors.filterMap id)
    (x, successors) :: expand next rounds known (queue ++ fresh)

/-- Expands nodes in the same way and lists the items made from them and their successors, up to the
first item whose name is in `names` or is that of an item before it. -/
def expandItems (next : α → List (Option α)) (item : α → List (Option α) → γ) (name : γ → β) :
    (rounds : Nat) → (names : Std.TreeSet β) → (known : Std.TreeSet α) → (queue : Queue α) → List γ
  | 0, _, _, _ => []
  | rounds + 1, names, known, queue =>
    match queue.next? with
    | none => []
    | some (x, queue) =>
      let successors := next x
      let y := item x successors
      if name y ∈ names then [y]
      else
        let (fresh, known) := discover known (successors.filterMap id)
        y :: expandItems next item name rounds (names.insert (name y)) known (queue.append fresh)

/-- The nodes met from a start, with their successors, if there are at most `bound` of them. -/
def breadthFirst (next : α → List (Option α)) (bound : Nat) (start : α) :
    List (α × List (Option α)) :=
  expand next bound (Std.TreeSet.empty.insert start) [start]

/-- The items made from the nodes met from a start and their successors, up to the first item whose
name is that of an item before it. -/
def itemsUpToRepeat (next : α → List (Option α)) (item : α → List (Option α) → γ) (name : γ → β)
    (bound : Nat) (start : α) : List γ :=
  expandItems next item name bound ∅ (Std.TreeSet.empty.insert start) ⟨[start], []⟩

theorem expandItems_eq (next : α → List (Option α)) (item : α → List (Option α) → γ)
    (name : γ → β) (rounds : Nat) (names : Std.TreeSet β) (known : Std.TreeSet α)
    (queue : Queue α) :
    expandItems next item name rounds names known queue = upToRepeatAfter name names
      ((expand next rounds known queue.toList).map fun (x, successors) => item x successors) := by
  induction rounds generalizing names known queue with
  | zero => rfl
  | succ rounds ih =>
    rw [expandItems]
    cases first : queue.next? with
    | none =>
      rw [Queue.toList_of_next?_eq_none first]
      rfl
    | some entry =>
      rw [Queue.toList_of_next?_eq_some first, expand, List.map_cons, upToRepeatAfter]
      dsimp only
      split
      · rfl
      · rw [ih, Queue.toList_append]

theorem itemsUpToRepeat_eq (next : α → List (Option α)) (item : α → List (Option α) → γ)
    (name : γ → β) (bound : Nat) (start : α) :
    itemsUpToRepeat next item name bound start = upToRepeat name
      ((breadthFirst next bound start).map fun (x, successors) => item x successors) :=
  expandItems_eq ..

end FiniteAutomata.Search
