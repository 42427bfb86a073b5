import FiniteAutomata.Occurrence
import Mathlib.Data.List.Induction

/-!
Lists without their repetitions. `List.eraseDups` keeps every element where it occurs first, so what
stands before an element of the front of a list is of the front as well (`mem_front_of_le`), and
distinct names for the elements are kept where their elements are (`eraseDups_map`).
-/

namespace FiniteAutomata

variable {α β : Type} [DecidableEq α] [DecidableEq β]

theorem eraseDups_concat (xs : List α) (x : α) :
    (xs ++ [x]).eraseDups = if x ∈ xs then xs.eraseDups else xs.eraseDups ++ [x] := by
  rw [List.eraseDups_append]
  split
  · next known => simp [List.removeAll, known]
  · next fresh => simp [List.removeAll, fresh, List.eraseDups_cons]

theorem eraseDups_map {f : α → β} {xs : List α}
    (inj : ∀ x ∈ xs, ∀ y ∈ xs, f x = f y → x = y) :
    (xs.map f).eraseDups = xs.eraseDups.map f := by
  induction xs using List.reverseRecOn with
  | nil => rfl
  | append_singleton xs x ih =>
    have last : x ∈ xs ++ [x] := List.mem_concat_self
    have earlier : ∀ y ∈ xs, y ∈ xs ++ [x] := fun y member => List.mem_append_left _ member
    have known : f x ∈ xs.map f ↔ x ∈ xs := by
      constructor
      · intro member
        obtain ⟨y, hy, same⟩ := List.mem_map.mp member
        exact inj y (earlier y hy) x last same ▸ hy
      · exact List.mem_map_of_mem
    rw [List.map_append, List.map_singleton, eraseDups_concat, eraseDups_concat,
      ih fun y hy z hz => inj y (earlier y hy) z (earlier z hz)]
    simp only [known]
    split
    · rfl
    · rw [List.map_append, List.map_singleton]

/-- What stands before an element of the front, once repetitions are erased, is of the front. -/
theorem mem_front_of_le {front back : List α} {i j : Nat} {x y : α} (le : i ≤ j)
    (later : (front ++ back).eraseDups[j]? = some y) (member : y ∈ front)
    (earlier : (front ++ back).eraseDups[i]? = some x) : x ∈ front := by
  rw [List.eraseDups_append] at later earlier
  have inside : j < front.eraseDups.length := by
    by_contra outside
    rw [List.getElem?_append_right (Nat.le_of_not_lt outside)] at later
    have behind := List.mem_eraseDups.mp (List.mem_of_getElem? later)
    simp [List.removeAll, member] at behind
  rw [List.getElem?_append_left (Nat.lt_of_le_of_lt le inside)] at earlier
  exact List.mem_eraseDups.mp (List.mem_of_getElem? earlier)

end FiniteAutomata
