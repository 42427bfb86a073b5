import FiniteAutomata.Proofs.Except
import FiniteAutomata.Proofs.Graph.Reachability
import FiniteAutomata.Search.Preorder

/-!
The searches of a graph against the recursive search. Both meet the states to which runs lead, in
the order of the recursion; the labels of an epsilon closure are read in that order, and the first
state without a label is the one that is reported.
-/

namespace FiniteAutomata

/-! ### Searching by recursion -/

namespace Search

/-- Searches from the nodes of a list from left to right. An unseen node is met, then all nodes that
a search from its successors meets; the search from the next node leaves all of these out. -/
def descend (next : Nat → List Nat) (unseen : Unseen) : List Nat → List Nat
  | [] => []
  | x :: xs =>
    if x ∈ unseen then
      let below := descend next (unseen.erase x) (next x)
      x :: below ++ descend next (unseen.eraseAll (x :: below)) xs
    else descend next unseen xs
termination_by xs => unseen.weight (fun x => (next x).length + 1) + xs.length
decreasing_by
  · next h =>
    have := unseen.weight_erase (fun x => (next x).length + 1) h
    simp only [List.length_cons]
    omega
  · exact Nat.add_lt_add_of_le_of_lt (unseen.weight_eraseAll_le _ _) (Nat.lt_succ_self _)
  · simp only [List.length_cons]
    omega

theorem preorder_eq_descend (next : Nat → List Nat) (unseen : Unseen) (xs : List Nat) :
    preorder next unseen xs = descend next unseen xs := by
  fun_induction descend next unseen xs with
  | case1 unseen => exact preorder_nil next unseen
  | case2 unseen x xs hx below ih rest =>
    calc preorder next unseen (x :: xs)
      _ = x :: preorder next (unseen.erase x) (next x ++ xs) := preorder_cons_of_mem hx
      _ = x :: (below ++ preorder next ((unseen.erase x).eraseAll below) xs) := by
        rw [preorder_append, ih]
      _ = x :: below ++ descend next (unseen.eraseAll (x :: below)) xs := by
        rw [← Unseen.eraseAll_cons, rest, List.cons_append]
  | case3 unseen x xs hx ih => rw [preorder_cons_of_not_mem hx, ih]

end Search

namespace Graph

variable {g : Graph} {i j : Nat}

/-! ### Reachable states -/

/-- The states reachable from a state are those that a recursive search through their successors
meets, in the same order. They are the states to which runs lead. -/
theorem reachable_eq_descend (existing : i < g.size) :
    g.reachable i = Search.descend g.successors (.below g.size) [i] ∧
      (g.reachable i).Nodup ∧ ∀ j, j ∈ g.reachable i ↔ g.Reaches i j := by
  refine ⟨?_, g.nodup_reachable i, fun j => ?_⟩
  · rw [reachable_eq, Search.preorder_eq_descend]
  · rw [mem_reachable]
    exact and_iff_right existing

/-- Four states with a cycle, a loop and two edges between the same states: `0` leads to `2` on a
character and without one. -/
def knot : Graph :=
  let states := (((empty.add false).add false).add false).add true
  let forth := (states.withEdge 0 (.char 'a') 1).withEdge 0 .epsilon 2
  let back := (forth.withEdge 0 (.char 'a') 2).withEdge 2 (.char 'b') 0
  (back.withEdge 2 .epsilon 2).withEdge 1 .epsilon 3

theorem reachable_eq_descend_knot : 0 < knot.size ∧
    knot.reachable 0 = Search.descend knot.successors (.below knot.size) [0] ∧
      (knot.reachable 0).Nodup ∧ ∀ j, j ∈ knot.reachable 0 ↔ knot.Reaches 0 j :=
  ⟨by decide, reachable_eq_descend (by decide)⟩

example : knot.reachable 0 = [0, 1, 3, 2] := by cbv

/-! ### Epsilon closures -/

/-- The states that a recursive search through epsilon edges meets from a state. -/
def silentDescent (g : Graph) (i : Nat) : List Nat :=
  Search.descend (g.targets · .epsilon) (.below g.size) [i]

theorem silentlyReachable_eq (g : Graph) (i : Nat) :
    g.silentlyReachable [i] = g.silentDescent i :=
  Search.preorder_eq_descend ..

theorem mem_silentDescent (existing : i < g.size) :
    j ∈ g.silentDescent i ↔ g.Run i [] j := by
  rw [← silentlyReachable_eq, mem_silentlyReachable]
  simp only [List.mem_singleton, exists_eq_left, existing, true_and]

theorem head?_silentDescent (existing : i < g.size) : (g.silentDescent i).head? = some i := by
  rw [silentDescent, Search.descend, if_pos (Search.Unseen.mem_below.mpr existing)]
  rfl

/-- Labels are read from states that all have one. -/
theorem exists_mapM_label_eq_ok {states : List Nat}
    (labelled : ∀ j ∈ states, (g.state j).label ≠ none) :
    ∃ labels, states.mapM g.label = .ok labels ∧
      labels.map some = states.map fun j => (g.state j).label := by
  induction states with
  | nil => exact ⟨[], rfl, rfl⟩
  | cons i states ih =>
    obtain ⟨first, rest⟩ := List.forall_mem_cons.mp labelled
    obtain ⟨label, known⟩ := Option.ne_none_iff_exists'.mp first
    obtain ⟨labels, read, same⟩ := ih rest
    refine ⟨label :: labels, ?_, ?_⟩
    · rw [List.mapM_cons, label_eq_ok known, read]
      rfl
    · rw [List.map_cons, List.map_cons, same, known]

/-- If some states have no label, the first of them is reported. -/
theorem exists_mapM_label_eq_error {states : List Nat}
    (missing : ∃ j ∈ states, (g.state j).label = none) :
    ∃ before j after, states = before ++ j :: after ∧
      (∀ k ∈ before, (g.state k).label ≠ none) ∧ (g.state j).label = none ∧
      states.mapM g.label = .error (.missingLabel j) := by
  obtain ⟨j, first⟩ : ∃ j, states.find? (fun j => (g.state j).label.isNone) = some j := by
    rw [← Option.isSome_iff_exists, List.find?_isSome]
    simpa only [Option.isNone_iff_eq_none] using missing
  obtain ⟨unlabelled, before, after, rfl, earlier⟩ := List.find?_eq_some_iff_append.mp first
  rw [Option.isNone_iff_eq_none] at unlabelled
  have labelled (k : Nat) (member : k ∈ before) : (g.state k).label ≠ none := by
    rw [← Option.isSome_iff_ne_none]
    simpa using earlier k member
  refine ⟨before, j, after, rfl, labelled, unlabelled, ?_⟩
  apply mapM_append_cons_eq_error _ (label_eq_error unlabelled)
  intro k member
  obtain ⟨label, known⟩ := Option.ne_none_iff_exists'.mp (labelled k member)
  exact ⟨label, label_eq_ok known⟩

/-- The closure of a state holds the labels of the states that silent runs lead to, in the order of
a recursive search. If some of them have no label, the first one in that order is reported. -/
theorem epsilonClosure_outcome (existing : i < g.size) :
    ((g.silentDescent i).head? = some i ∧ (g.silentDescent i).Nodup ∧
      ∀ j, j ∈ g.silentDescent i ↔ g.Run i [] j) ∧
    ((∀ j, g.Run i [] j → (g.state j).label ≠ none) →
      ∃ labels, g.epsilonClosure i = .ok labels ∧
        labels.map some = (g.silentDescent i).map fun j => (g.state j).label) ∧
    ((∃ j, g.Run i [] j ∧ (g.state j).label = none) →
      ∃ before j after, g.silentDescent i = before ++ j :: after ∧
        (∀ k ∈ before, (g.state k).label ≠ none) ∧ (g.state j).label = none ∧
        g.epsilonClosure i = .error (.missingLabel j)) := by
  have silent (j : Nat) : j ∈ g.silentDescent i ↔ g.Run i [] j := mem_silentDescent existing
  rw [epsilonClosure_eq, silentlyReachable_eq]
  refine ⟨⟨head?_silentDescent existing, ?_, silent⟩, fun labelled => ?_, ?_⟩
  · rw [← silentlyReachable_eq]
    exact Search.nodup_preorder ..
  · exact exists_mapM_label_eq_ok fun j member => labelled j ((silent j).mp member)
  · rintro ⟨j, run, unlabelled⟩
    exact exists_mapM_label_eq_error ⟨j, (silent j).mpr run, unlabelled⟩

/-- Epsilon edges lead from `0` to `2` and then to `1`, which has no label and from which they lead
back, and in a cycle from `2` to `3`. -/
def gap : Graph :=
  let states := ((empty.add false (some (.name "s"))).add false).add false (some (.name "t"))
  let forth := ((states.add true (some (.number 1))).withEdge 0 .epsilon 2).withEdge 0 .epsilon 1
  ((forth.withEdge 1 .epsilon 0).withEdge 2 .epsilon 3).withEdge 3 .epsilon 2

theorem epsilonClosure_outcome_gap : 0 < gap.size ∧ gap.Run 0 [] 1 ∧
    (gap.state 1).label = none ∧
    ∃ before j after, gap.silentDescent 0 = before ++ j :: after ∧
      (∀ k ∈ before, (gap.state k).label ≠ none) ∧ (gap.state j).label = none ∧
      gap.epsilonClosure 0 = .error (.missingLabel j) := by
  have run : gap.Run 0 [] 1 := .silent (by decide) (.stop 1)
  have unlabelled : (gap.state 1).label = none := by decide
  exact ⟨by decide, run, unlabelled, (epsilonClosure_outcome (by decide)).2.2 ⟨1, run, unlabelled⟩⟩

example : gap.epsilonClosure 2 = .ok [.name "t", .number 1] := by cbv

end Graph

end FiniteAutomata
