import FiniteAutomata.Proofs.Graph.Words

/-!
What the changes of a graph leave alone: the flags they do not set, the states they do not name and
the runs of states that cannot reach the changed ones.
-/

namespace FiniteAutomata.Graph

variable {g g' : Graph} {i j k : Nat}

/-! ### Other states -/

theorem state_add_of_ne (ne : k ≠ g.size) (accepting : Bool) (label : Option Label) :
    (g.add accepting label).state k = g.state k := by
  rw [state_add, if_neg ne]

theorem state_withAccepting_of_ne (ne : k ≠ i) (accepting : Bool) :
    (g.withAccepting i accepting).state k = g.state k := by
  rw [withAccepting, state_update, if_neg fun same => ne same.1]

theorem state_withEdge_of_ne (ne : k ≠ i) (a : Symbol) (j : Nat) :
    (g.withEdge i a j).state k = g.state k := by
  rw [withEdge]
  split
  · rw [state_update, if_neg fun same => ne same.1]
  · rfl

/-! ### Other flags -/

@[simp]
theorem accepting_add (g : Graph) (accepting : Bool) (label : Option Label) (k : Nat) :
    ((g.add accepting label).state k).accepting =
      if k = g.size then accepting else (g.state k).accepting := by
  rw [state_add]
  split <;> rfl

@[simp]
theorem accepting_withEdge (g : Graph) (i : Nat) (a : Symbol) (j k : Nat) :
    ((g.withEdge i a j).state k).accepting = (g.state k).accepting :=
  kept_withEdge (·.accepting) g i (fun _ _ => rfl) a j k

theorem accepting_withAccepting (hi : i < g.size) (accepting : Bool) (k : Nat) :
    ((g.withAccepting i accepting).state k).accepting =
      if k = i then accepting else (g.state k).accepting := by
  rw [state_withAccepting hi]
  split <;> rfl

@[simp]
theorem accepting_withStarting (g : Graph) (i : Nat) (starting : Bool) (k : Nat) :
    ((g.withStarting i starting).state k).accepting = (g.state k).accepting :=
  kept_withStarting (·.accepting) g i (fun _ _ => rfl) starting k

@[simp]
theorem starting_add (g : Graph) (accepting : Bool) (label : Option Label) (k : Nat) :
    ((g.add accepting label).state k).starting = (g.state k).starting := by
  rw [state_add]
  split
  · next same => rw [state_of_size_le same.ge]
  · rfl

@[simp]
theorem starting_withEdge (g : Graph) (i : Nat) (a : Symbol) (j k : Nat) :
    ((g.withEdge i a j).state k).starting = (g.state k).starting :=
  kept_withEdge (·.starting) g i (fun _ _ => rfl) a j k

@[simp]
theorem starting_withAccepting (g : Graph) (i : Nat) (accepting : Bool) (k : Nat) :
    ((g.withAccepting i accepting).state k).starting = (g.state k).starting :=
  kept_withAccepting (·.starting) g i (fun _ _ => rfl) accepting k

/-! ### Edges and runs -/

theorem mem_targets_withEdge_iff {a b : Symbol} {p q : Nat} :
    q ∈ (g.withEdge i a j).targets p b ↔
      q ∈ g.targets p b ∨ (i < g.size ∧ j < g.size) ∧ p = i ∧ b = a ∧ q = j := by
  by_cases inside : i < g.size ∧ j < g.size
  · rw [targets_withEdge inside.1 a inside.2]
    split
    · next same => simp [same, inside]
    · next other =>
      have none : ¬ (p = i ∧ b = a ∧ q = j) := fun same => other ⟨same.1, same.2.1⟩
      simp [none]
  · have same : (g.withEdge i a j).state p = g.state p := by
      rw [withEdge]
      split
      · next hj =>
        rw [state_update, if_neg]
        exact fun same => inside ⟨same.2, hj⟩
      · rfl
    simp only [targets, same, inside, false_and, or_false]

/-- No edge leaves the set of states. -/
def Closed (g : Graph) (S : Nat → Prop) : Prop := ∀ p, S p → ∀ a q, q ∈ g.targets p a → S q

/-- Runs in a closed set of states that did not change are the same. -/
theorem Closed.run_iff {S : Nat → Prop} (closed : g.Closed S)
    (same : ∀ p, S p → g'.state p = g.state p) (hi : S i) {w : List Char} :
    g'.Run i w j ↔ g.Run i w j := by
  have targets (p : Nat) (hp : S p) (a : Symbol) : g'.targets p a = g.targets p a := by
    rw [Graph.targets, Graph.targets, same p hp]
  constructor
  · intro run
    induction run with
    | stop => exact .stop _
    | silent e _ ih =>
      rw [targets _ hi] at e
      exact .silent e (ih (closed _ hi _ _ e))
    | read e _ ih =>
      rw [targets _ hi] at e
      exact .read e (ih (closed _ hi _ _ e))
  · intro run
    induction run with
    | stop => exact .stop _
    | silent e _ ih =>
      refine .silent ?_ (ih (closed _ hi _ _ e))
      rwa [targets _ hi]
    | read e _ ih =>
      refine .read ?_ (ih (closed _ hi _ _ e))
      rwa [targets _ hi]

theorem Closed.reaches {S : Nat → Prop} (closed : g.Closed S) (h : g.Reaches i j) (hi : S i) :
    S j := by
  obtain ⟨w, run⟩ := h
  induction run with
  | stop => exact hi
  | silent e _ ih => exact ih (closed _ hi _ _ e)
  | read e _ ih => exact ih (closed _ hi _ _ e)

theorem Reaches.tail {a : Symbol} (h : g.Reaches i j) (e : k ∈ g.targets j a) :
    g.Reaches i k := by
  obtain ⟨w, run⟩ := h
  cases a with
  | epsilon => exact ⟨w ++ [], run.append (.silent e (.stop k))⟩
  | char c => exact ⟨w ++ [c], run.append (.read e (.stop k))⟩

theorem Reaches.edge {a : Symbol} (e : j ∈ g.targets i a) : g.Reaches i j :=
  (Reaches.refl g i).tail e

theorem Reaches.mono (sub : ∀ p a, g.targets p a ⊆ g'.targets p a) (h : g.Reaches i j) :
    g'.Reaches i j := by
  obtain ⟨w, run⟩ := h
  exact ⟨w, words_mono sub i j run⟩

theorem closed_reaches (g : Graph) (i : Nat) : g.Closed (g.Reaches i) :=
  fun _ h _ _ e => h.tail e

/-! ### Changes that are not refused -/

theorem requireState_bind_eq_ok_iff {α : Type} {f : Unit → Except Misuse α} {z : α} :
    (g.requireState i).bind f = .ok z ↔ i < g.size ∧ f () = .ok z := by
  rw [requireState]
  split
  · next existing => simp [existing, Except.bind]
  · next missing => simp [missing, Except.bind]

theorem setAccepting_eq_ok_iff {accepting : Bool} : g.setAccepting i accepting = .ok g' ↔
    i < g.size ∧ g.withAccepting i accepting = g' :=
  requireState_bind_eq_ok_iff.trans (and_congr_right fun _ => Iff.of_eq (Except.ok.injEq ..))

theorem setStarting_eq_ok_iff {starting : Bool} : g.setStarting i starting = .ok g' ↔
    i < g.size ∧ g.withStarting i starting = g' :=
  requireState_bind_eq_ok_iff.trans (and_congr_right fun _ => Iff.of_eq (Except.ok.injEq ..))

theorem connect_eq_ok_iff {a : Symbol} : g.connect i a j = .ok g' ↔
    j < g.size ∧ i < g.size ∧ g.withEdge i a j = g' := by
  rw [connect]
  split
  · next missing =>
    refine iff_of_false (fun refused => ?_) fun ok => absurd ok.1 (Nat.not_lt_of_le missing)
    cases refused
  · next existing =>
    rw [and_iff_right (Nat.lt_of_not_le existing)]
    exact requireState_bind_eq_ok_iff.trans (and_congr_right fun _ => Iff.of_eq (Except.ok.injEq ..))

/-! ### Growing -/

/-- `g'` is `g` with more states, with more edges from and to new states and states in `S`, and with
other accepting flags on them. -/
structure Grows (g : Graph) (S : Nat → Prop) (g' : Graph) : Prop where
  size_le : g.size ≤ g'.size
  sub : ∀ i a, g.targets i a ⊆ g'.targets i a
  edge : ∀ i a j, j ∈ g'.targets i a → j ∈ g.targets i a ∨ g.size ≤ j ∨ S j
  kept : ∀ i < g.size, ¬ S i → g'.state i = g.state i
  starting : ∀ i, (g'.state i).starting = (g.state i).starting

namespace Grows

variable {S : Nat → Prop}

theorem refl (g : Graph) (S : Nat → Prop) : g.Grows S g where
  size_le := Nat.le_refl _
  sub _ _ _ h := h
  edge _ _ _ h := .inl h
  kept _ _ _ := rfl
  starting _ := rfl

theorem add (h : g.Grows S g') (accepting : Bool) : g.Grows S (g'.add accepting) where
  size_le := by
    rw [size_add]
    exact Nat.le_succ_of_le h.size_le
  sub i a := by
    rw [targets_add]
    exact h.sub i a
  edge i a j e := by
    rw [targets_add] at e
    exact h.edge i a j e
  kept i lt other := by
    have size := h.size_le
    rw [state_add_of_ne (by omega), h.kept i lt other]
  starting i := by rw [starting_add, h.starting]

theorem withAccepting (h : g.Grows S g') (hi : g.size ≤ i ∨ S i) (accepting : Bool) :
    g.Grows S (g'.withAccepting i accepting) where
  size_le := by
    rw [size_withAccepting]
    exact h.size_le
  sub k a := by
    rw [targets_withAccepting]
    exact h.sub k a
  edge k a j e := by
    rw [targets_withAccepting] at e
    exact h.edge k a j e
  kept k lt other := by
    have ne : k ≠ i := by
      rintro rfl
      exact hi.elim (Nat.not_le_of_lt lt) other
    rw [state_withAccepting_of_ne ne, h.kept k lt other]
  starting k := by rw [starting_withAccepting, h.starting]

theorem withEdge (h : g.Grows S g') (hi : g.size ≤ i ∨ S i) (hj : g.size ≤ j ∨ S j) (a : Symbol) :
    g.Grows S (g'.withEdge i a j) where
  size_le := by
    rw [size_withEdge]
    exact h.size_le
  sub k b p e := mem_targets_withEdge_iff.mpr (.inl (h.sub k b e))
  edge k b p e := by
    rcases mem_targets_withEdge_iff.mp e with e | ⟨-, -, -, rfl⟩
    · exact h.edge k b p e
    · exact .inr hj
  kept k lt other := by
    have ne : k ≠ i := by
      rintro rfl
      exact hi.elim (Nat.not_le_of_lt lt) other
    rw [state_withEdge_of_ne ne, h.kept k lt other]
  starting k := by rw [starting_withEdge, h.starting]

end Grows

end FiniteAutomata.Graph
