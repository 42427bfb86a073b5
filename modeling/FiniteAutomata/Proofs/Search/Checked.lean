import FiniteAutomata.Errors
import FiniteAutomata.Search.Preorder

/-!
Depth-first searches that check every number before they read its flag. From numbers below a bound
that successors do not leave, no check fails, so the searches that do not check never read a flag
that is not there.
-/

namespace FiniteAutomata.Search

universe u v

/-- `visitFresh`, refused at the first number without a flag. -/
def visitFreshChecked (next : Nat → List Nat) (unseen : Unseen) (stack : List Nat)
    (met : Array Nat) : Except Misuse (Array Nat) :=
  match stack with
  | [] => .ok met
  | x :: rest =>
    if x < unseen.flags.size then
      if x ∈ unseen then
        let left := unseen.erase x
        match (next x).find? (left.flags.size ≤ ·) with
        | some y => .error (.noState y)
        | none => visitFreshChecked next left ((next x).filter (· ∈ left) ++ rest) (met.push x)
      else visitFreshChecked next unseen rest met
    else .error (.noState x)
termination_by unseen.weight (fun x => (next x).length + 1) + stack.length
decreasing_by
  · have := unseen.weight_erase (fun x => (next x).length + 1) ‹x ∈ unseen›
    have := List.length_filter_le (· ∈ unseen.erase x) (next x)
    simp only [List.length_append, List.length_cons]
    omega
  · simp only [List.length_cons]
    omega

/-- `collect`, refused at the first number without a flag. -/
def collectChecked {ε : Type u} {β : Type v} (next : Nat → List Nat) (ask : Nat → Except ε β)
    (unseen : Unseen) (stack : List Nat) (answers : Array β) :
    Except Misuse (Except ε (Array β)) :=
  match stack with
  | [] => .ok (.ok answers)
  | x :: rest =>
    if x < unseen.flags.size then
      if x ∈ unseen then
        match ask x with
        | .ok answer =>
          collectChecked next ask (unseen.erase x) (next x ++ rest) (answers.push answer)
        | .error e => .ok (.error e)
      else collectChecked next ask unseen rest answers
    else .error (.noState x)
termination_by unseen.weight (fun x => (next x).length + 1) + stack.length
decreasing_by
  · have := unseen.weight_erase (fun x => (next x).length + 1) ‹x ∈ unseen›
    simp only [List.length_append, List.length_cons]
    omega
  · simp only [List.length_cons]
    omega

variable {next : Nat → List Nat} {n : Nat} {unseen : Unseen} {stack : List Nat}

theorem visitFreshChecked_eq (inside : ∀ x, ∀ y ∈ next x, y < n) (flags : unseen.flags.size = n)
    (below : ∀ x ∈ stack, x < n) (met : Array Nat) :
    visitFreshChecked next unseen stack met = .ok (visitFresh next unseen stack met) := by
  fun_induction visitFresh next unseen stack met with
  | case1 => rw [visitFreshChecked]
  | case2 unseen met x rest hx left ih =>
    obtain ⟨first, rest⟩ := List.forall_mem_cons.mp below
    have size : left.flags.size = n := by simp [left, Unseen.erase, flags]
    have none : (next x).find? (left.flags.size ≤ ·) = none := by
      rw [List.find?_eq_none]
      intro y hy
      simpa [size] using inside x y hy
    rw [visitFreshChecked, if_pos (flags ▸ first), if_pos hx]
    simp only [left] at none ih
    simp only [none]
    exact ih size (List.forall_mem_append.mpr
      ⟨fun y hy => inside x y ((List.mem_filter.mp hy).1), rest⟩)
  | case3 unseen met x rest hx ih =>
    obtain ⟨first, rest⟩ := List.forall_mem_cons.mp below
    rw [visitFreshChecked, if_pos (flags ▸ first), if_neg hx]
    exact ih flags rest

theorem collectChecked_eq {ε : Type u} {β : Type v} (inside : ∀ x, ∀ y ∈ next x, y < n)
    (flags : unseen.flags.size = n) (below : ∀ x ∈ stack, x < n) (ask : Nat → Except ε β)
    (answers : Array β) : collectChecked next ask unseen stack answers =
      .ok (collect next ask unseen stack answers) := by
  fun_induction collect next ask unseen stack answers with
  | case1 => rw [collectChecked]
  | case2 unseen answers x rest hx answer asked ih =>
    obtain ⟨first, rest⟩ := List.forall_mem_cons.mp below
    rw [collectChecked, if_pos (flags ▸ first), if_pos hx, asked]
    exact ih (by simp [Unseen.erase, flags]) (List.forall_mem_append.mpr ⟨inside x, rest⟩)
  | case3 unseen answers x rest hx e asked =>
    obtain ⟨first, -⟩ := List.forall_mem_cons.mp below
    rw [collectChecked, if_pos (flags ▸ first), if_pos hx, asked]
  | case4 unseen answers x rest hx ih =>
    obtain ⟨first, rest⟩ := List.forall_mem_cons.mp below
    rw [collectChecked, if_pos (flags ▸ first), if_neg hx]
    exact ih flags rest

end FiniteAutomata.Search
