/-!
The numbered nodes that a search has still to meet, a flag for each. `mem_below` and `mem_erase` say
which nodes there are; `weight_erase` measures the work that meeting a node takes away.
-/

namespace FiniteAutomata.Search

structure Unseen where
  flags : Array Bool

namespace Unseen

instance : Membership Nat Unseen := ⟨fun u x => u.flags.getD x false = true⟩

theorem mem_def {u : Unseen} {x : Nat} : x ∈ u ↔ u.flags.getD x false = true := Iff.rfl

instance (x : Nat) (u : Unseen) : Decidable (x ∈ u) :=
  inferInstanceAs (Decidable (u.flags.getD x false = true))

def below (n : Nat) : Unseen := ⟨Array.replicate n true⟩

def erase (u : Unseen) (x : Nat) : Unseen := ⟨u.flags.setIfInBounds x false⟩

@[simp]
theorem mem_below {n x : Nat} : x ∈ below n ↔ x < n := by
  simp only [mem_def, below, Array.getD_eq_getD_getElem?, Array.getElem?_replicate]
  split <;> simp_all

@[simp]
theorem mem_erase {u : Unseen} {x y : Nat} : y ∈ u.erase x ↔ y ≠ x ∧ y ∈ u := by
  simp only [mem_def, erase, Array.getD_eq_getD_getElem?, Array.getElem?_setIfInBounds]
  by_cases h : x = y
  · subst h
    by_cases hx : x < u.flags.size <;> simp [hx]
  · simp [h, Ne.symm h]

def eraseAll (u : Unseen) (xs : List Nat) : Unseen := xs.foldl erase u

theorem eraseAll_cons (u : Unseen) (x : Nat) (xs : List Nat) :
    u.eraseAll (x :: xs) = (u.erase x).eraseAll xs := rfl

@[simp]
theorem mem_eraseAll {u : Unseen} {xs : List Nat} {y : Nat} :
    y ∈ u.eraseAll xs ↔ y ∉ xs ∧ y ∈ u := by
  induction xs generalizing u with
  | nil => simp [eraseAll]
  | cons x xs ih =>
    rw [eraseAll_cons, ih, mem_erase, List.mem_cons, not_or, ← and_assoc]
    exact and_congr_left fun _ => and_comm

/-! ### Weights -/

/-- The sum of the costs of the flagged nodes, the first of which has number `i`. -/
def weightFrom (cost : Nat → Nat) (i : Nat) : List Bool → Nat
  | [] => 0
  | flag :: flags => (if flag then cost i else 0) + weightFrom cost (i + 1) flags

theorem weightFrom_set (cost : Nat → Nat) (i : Nat) {flags : List Bool} {x : Nat}
    (h : flags[x]? = some true) :
    cost (i + x) + weightFrom cost i (flags.set x false) = weightFrom cost i flags := by
  induction flags generalizing i x with
  | nil => simp at h
  | cons flag flags ih =>
    cases x with
    | zero =>
      obtain rfl : flag = true := by simpa using h
      simp [weightFrom]
    | succ x =>
      have := ih (i + 1) (x := x) (by simpa using h)
      rw [List.set_cons_succ, weightFrom, weightFrom, ← this, Nat.add_assoc i 1 x, Nat.add_comm 1 x]
      omega

/-- The sum of the costs of all nodes. -/
def weight (cost : Nat → Nat) (u : Unseen) : Nat := weightFrom cost 0 u.flags.toList

theorem weight_erase (cost : Nat → Nat) {u : Unseen} {x : Nat} (h : x ∈ u) :
    cost x + (u.erase x).weight cost = u.weight cost := by
  have flagged : u.flags.toList[x]? = some true := by
    rw [mem_def, Array.getD_eq_getD_getElem?] at h
    cases e : u.flags[x]? with
    | none => simp [e] at h
    | some flag => simpa [e] using h
  simpa [weight, erase] using weightFrom_set cost 0 flagged

theorem erase_of_not_mem {u : Unseen} {x : Nat} (h : x ∉ u) : u.erase x = u := by
  rw [mem_def, Array.getD_eq_getD_getElem?] at h
  rw [erase, mk.injEq]
  apply Array.ext_getElem?
  intro y
  rw [Array.getElem?_setIfInBounds]
  split
  · next same =>
    subst same
    split
    · next bound => simpa [bound] using h
    · next bound => simp [bound]
  · rfl

theorem weight_eraseAll_le (cost : Nat → Nat) (u : Unseen) (xs : List Nat) :
    (u.eraseAll xs).weight cost ≤ u.weight cost := by
  induction xs generalizing u with
  | nil => exact Nat.le_refl _
  | cons x xs ih =>
    apply Nat.le_trans (ih (u.erase x))
    by_cases h : x ∈ u
    · exact u.weight_erase cost h ▸ Nat.le_add_left ..
    · exact Nat.le_of_eq (congrArg (weight cost) (erase_of_not_mem h))

end Unseen

end FiniteAutomata.Search
