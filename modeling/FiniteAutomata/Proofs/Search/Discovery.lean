import FiniteAutomata.Proofs.Search.BreadthFirst

/-!
The order of a breadth-first search. The nodes that it lists are the start and then all successors
that it lists, each where it occurs first (`map_fst_breadthFirst`).
-/

namespace FiniteAutomata.Search

universe u

variable {α : Type u} [Ord α]

theorem discover_append (known : Std.TreeSet α) (xs ys : List α) :
    (discover known (xs ++ ys)).1 =
      (discover known xs).1 ++ (discover (discover known xs).2 ys).1 := by
  induction xs generalizing known with
  | nil => rfl
  | cons x xs ih =>
    rw [List.cons_append, discover, discover]
    split
    · exact ih known
    · exact congrArg (x :: ·) (ih _)

/-- The nodes to which the successors in a list lead, in order and with repetitions. -/
def successorsIn (found : List (α × List (Option α))) : List α :=
  found.flatMap fun e => e.2.filterMap id

variable [Std.TransOrd α] [Std.LawfulEqOrd α]

theorem discover_eq_eraseDups [DecidableEq α] (known : Std.TreeSet α) (xs : List α) :
    (discover known xs).1 = (xs.filter (· ∉ known)).eraseDups := by
  induction xs generalizing known with
  | nil => rfl
  | cons x xs ih =>
    rw [discover]
    split
    · next old => rw [ih, List.filter_cons_of_neg (by simpa using old)]
    · next new =>
      have rest : (xs.filter (· ∉ known)).filter (fun y => !y == x) =
          xs.filter (· ∉ known.insert x) := by
        rw [List.filter_filter]
        refine List.filter_congr fun y _ => ?_
        rw [Bool.eq_iff_iff]
        simp only [Bool.and_eq_true, Bool.not_eq_true', beq_eq_false_iff_ne, decide_eq_true_eq,
          Std.TreeSet.mem_insert, Std.LawfulEqCmp.compare_eq_iff_eq, not_or, ne_comm]
      rw [List.filter_cons_of_pos (by simpa using new), List.eraseDups_cons, rest, ← ih]

variable {valid : α → Prop} {next : α → List (Option α)}

/-- A search lists the queue and then the new nodes among the successors that it lists. -/
theorem map_fst_expand (keeps : ∀ x, valid x → ∀ y, some y ∈ next x → valid y) {rounds : Nat}
    {done : List α} {known : Std.TreeSet α} {queue : List α}
    (progress : Progress valid done known queue) (bound : AtMost valid (done.length + rounds)) :
    (expand next rounds known queue).map Prod.fst =
      queue ++ (discover known (successorsIn (expand next rounds known queue))).1 := by
  induction rounds generalizing done known queue with
  | zero =>
    have full := bound _ progress.distinct progress.valid
    rw [List.length_append] at full
    obtain rfl : queue = [] := List.eq_nil_of_length_eq_zero (by omega)
    rfl
  | succ rounds ih =>
    cases queue with
    | nil => rfl
    | cons x queue =>
      have enough : AtMost valid ((done ++ [x]).length + rounds) := by
        rw [List.length_append, List.length_singleton, Nat.add_assoc, Nat.add_comm 1]
        exact bound
      have rest := ih (progress.step keeps) enough
      rw [expand]
      dsimp only
      generalize expand next rounds _ _ = found at rest ⊢
      have successors : successorsIn ((x, next x) :: found) =
          (next x).filterMap id ++ successorsIn found := List.flatMap_cons
      rw [List.map_cons, rest, successors, discover_append, List.append_assoc, List.cons_append]

theorem map_fst_breadthFirst [DecidableEq α]
    (keeps : ∀ x, valid x → ∀ y, some y ∈ next x → valid y) {start : α} (ok : valid start)
    {bound : Nat} (enough : AtMost valid bound) :
    (breadthFirst next bound start).map Prod.fst =
      (start :: successorsIn (breadthFirst next bound start)).eraseDups := by
  have listed : (expand next bound (Std.TreeSet.empty.insert start) [start]).map Prod.fst = _ :=
    map_fst_expand keeps (progress_start ok) (by simpa using enough)
  generalize successors : successorsIn (breadthFirst next bound start) = xs
  -- The start is what would be new if nothing were known.
  have first : start :: (discover (Std.TreeSet.empty.insert start) xs).1 =
      (discover ∅ (start :: xs)).1 := by
    rw [discover, if_neg Std.TreeSet.not_mem_emptyc]
    rfl
  have all : (start :: xs).filter (· ∉ (∅ : Std.TreeSet α)) = start :: xs := by
    rw [List.filter_eq_self]
    simp
  rw [breadthFirst] at successors ⊢
  rw [listed, successors, List.singleton_append, first, discover_eq_eraseDups, all]

end FiniteAutomata.Search
