import FiniteAutomata.Graph.Basic

/-!
What the changes of a graph do to its size, its states and the targets of its edges.
-/

namespace FiniteAutomata.Graph

theorem state_of_lt {g : Graph} {i : Nat} (h : i < g.size) : g.state i = g.states[i] := by
  rw [state, Array.getD_eq_getD_getElem?, Array.getElem?_eq_getElem h, Option.getD_some]

theorem state_of_size_le {g : Graph} {i : Nat} (h : g.size ≤ i) : g.state i = {} := by
  rw [state, Array.getD_eq_getD_getElem?, Array.getElem?_eq_none h, Option.getD_none]

theorem state_update (g : Graph) (i : Nat) (f : State → State)
    (inside : ∀ s, ∀ j ∈ (f s).successors, j ∈ s.successors ∨ j < g.size) (j : Nat) :
    (g.update i f inside).state j = if j = i ∧ i < g.size then f (g.state i) else g.state j := by
  simp only [state, update, Array.getD_eq_getD_getElem?, Array.getElem?_modify]
  by_cases hj : i = j
  · subst hj
    by_cases hi : i < g.size
    · rw [if_pos rfl, if_pos ⟨rfl, hi⟩, Array.getElem?_eq_getElem hi]
      rfl
    · rw [if_pos rfl, if_neg fun h => hi h.2, Array.getElem?_eq_none (Nat.le_of_not_lt hi)]
      rfl
  · rw [if_neg hj, if_neg fun h => hj h.1.symm]

/-! ### Sizes -/

@[simp]
theorem size_add (g : Graph) (accepting : Bool) (label : Option Label) :
    (g.add accepting label).size = g.size + 1 :=
  Array.size_push _

@[simp]
theorem size_withAccepting (g : Graph) (i : Nat) (accepting : Bool) :
    (g.withAccepting i accepting).size = g.size :=
  Array.size_modify

@[simp]
theorem size_withStarting (g : Graph) (i : Nat) (starting : Bool) :
    (g.withStarting i starting).size = g.size :=
  Array.size_modify

@[simp]
theorem size_withLabel (g : Graph) (i : Nat) (label : Label) :
    (g.withLabel i label).size = g.size :=
  Array.size_modify

@[simp]
theorem size_withEdge (g : Graph) (i : Nat) (a : Symbol) (j : Nat) :
    (g.withEdge i a j).size = g.size := by
  rw [withEdge]
  split
  · exact Array.size_modify
  · rfl

/-! ### States -/

theorem state_add (g : Graph) (accepting : Bool) (label : Option Label) (i : Nat) :
    (g.add accepting label).state i = if i = g.size then { accepting, label } else g.state i := by
  simp only [state, add, Array.getD_eq_getD_getElem?, Array.getElem?_push, size]
  split <;> rfl

theorem state_withAccepting {g : Graph} {i : Nat} (hi : i < g.size) (accepting : Bool) (j : Nat) :
    (g.withAccepting i accepting).state j =
      if j = i then { g.state i with accepting } else g.state j := by
  simp [withAccepting, state_update, hi]

theorem state_withStarting {g : Graph} {i : Nat} (hi : i < g.size) (starting : Bool) (j : Nat) :
    (g.withStarting i starting).state j =
      if j = i then { g.state i with starting } else g.state j := by
  simp [withStarting, state_update, hi]

theorem state_withLabel {g : Graph} {i : Nat} (hi : i < g.size) (label : Label) (j : Nat) :
    (g.withLabel i label).state j =
      if j = i then { g.state i with label := some label } else g.state j := by
  simp [withLabel, state_update, hi]

theorem state_withEdge {g : Graph} {i j : Nat} (hi : i < g.size) (a : Symbol) (hj : j < g.size)
    (k : Nat) : (g.withEdge i a j).state k =
      if k = i then { g.state i with edges := (g.state i).edges.add a j } else g.state k := by
  simp [withEdge, state_update, hi, hj]

/-! ### What is kept -/

section Kept

variable {α : Type} (part : State → α) (g : Graph) (i : Nat)

/-- What the change of a state leaves alone is the same of every state afterwards. -/
theorem kept_update (f : State → State)
    (inside : ∀ s, ∀ j ∈ (f s).successors, j ∈ s.successors ∨ j < g.size)
    (kept : ∀ s, part (f s) = part s) (k : Nat) :
    part ((g.update i f inside).state k) = part (g.state k) := by
  rw [state_update]
  split
  · next same => rw [kept, same.1]
  · rfl

theorem kept_withAccepting (kept : ∀ s accepting, part { s with accepting } = part s)
    (accepting : Bool) (k : Nat) :
    part ((g.withAccepting i accepting).state k) = part (g.state k) :=
  kept_update part g i _ _ (fun s => kept s accepting) k

theorem kept_withStarting (kept : ∀ s starting, part { s with starting } = part s)
    (starting : Bool) (k : Nat) :
    part ((g.withStarting i starting).state k) = part (g.state k) :=
  kept_update part g i _ _ (fun s => kept s starting) k

theorem kept_withLabel (kept : ∀ s label, part { s with label } = part s) (label : Label)
    (k : Nat) : part ((g.withLabel i label).state k) = part (g.state k) :=
  kept_update part g i _ _ (fun s => kept s label) k

theorem kept_withEdge (kept : ∀ s edges, part { s with edges } = part s) (a : Symbol) (j k : Nat) :
    part ((g.withEdge i a j).state k) = part (g.state k) := by
  rw [withEdge]
  split
  · exact kept_update part g i _ _ (fun s => kept s _) k
  · rfl

end Kept

/-! ### Targets -/

@[simp]
theorem targets_add (g : Graph) (accepting : Bool) (label : Option Label) (i : Nat) (a : Symbol) :
    (g.add accepting label).targets i a = g.targets i a := by
  rw [targets, state_add]
  split
  · next h =>
    rw [targets, state_of_size_le (Nat.le_of_eq h.symm)]
    rfl
  · rfl

@[simp]
theorem targets_withAccepting (g : Graph) (i : Nat) (accepting : Bool) (k : Nat) (a : Symbol) :
    (g.withAccepting i accepting).targets k a = g.targets k a :=
  kept_withAccepting (·.targets a) g i (fun _ _ => rfl) accepting k

@[simp]
theorem targets_withStarting (g : Graph) (i : Nat) (starting : Bool) (k : Nat) (a : Symbol) :
    (g.withStarting i starting).targets k a = g.targets k a :=
  kept_withStarting (·.targets a) g i (fun _ _ => rfl) starting k

@[simp]
theorem targets_withLabel (g : Graph) (i : Nat) (label : Label) (k : Nat) (a : Symbol) :
    (g.withLabel i label).targets k a = g.targets k a :=
  kept_withLabel (·.targets a) g i (fun _ _ => rfl) label k

/-- A new edge is the last one of its source on its symbol. -/
theorem targets_withEdge {g : Graph} {i j : Nat} (hi : i < g.size) (a : Symbol) (hj : j < g.size)
    (k : Nat) (b : Symbol) : (g.withEdge i a j).targets k b =
      if k = i ∧ b = a then g.targets k b ++ [j] else g.targets k b := by
  rw [targets, state_withEdge hi a hj]
  by_cases hk : k = i
  · subst hk
    simp only [if_true, true_and]
    exact Edges.targets_add ..
  · simp only [hk, if_false, false_and]
    rfl

end FiniteAutomata.Graph
