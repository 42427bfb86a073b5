import FiniteAutomata.Search.BreadthFirst

/-!
Breadth-first search meets every node to which successors lead, if the bound on its rounds is at
least the number of nodes that can be met.
-/

namespace FiniteAutomata.Search

universe u

variable {α : Type u} [Ord α] [Std.TransOrd α] [Std.LawfulEqOrd α]

theorem mem_discover_known {known : Std.TreeSet α} {xs : List α} {y : α} :
    y ∈ (discover known xs).2 ↔ y ∈ known ∨ y ∈ xs := by
  induction xs generalizing known with
  | nil => simp [discover]
  | cons x xs ih =>
    rw [discover]
    split
    · next old =>
      rw [ih, List.mem_cons]
      grind
    · rw [ih, Std.TreeSet.mem_insert, Std.LawfulEqCmp.compare_eq_iff_eq, List.mem_cons]
      grind

theorem mem_discover_fresh {known : Std.TreeSet α} {xs : List α} {y : α} :
    y ∈ (discover known xs).1 ↔ y ∈ xs ∧ y ∉ known := by
  induction xs generalizing known with
  | nil => simp [discover]
  | cons x xs ih =>
    rw [discover]
    split
    · next old =>
      rw [ih, List.mem_cons]
      grind
    · next new =>
      rw [List.mem_cons, ih, Std.TreeSet.mem_insert, Std.LawfulEqCmp.compare_eq_iff_eq,
        List.mem_cons]
      grind

theorem nodup_discover_fresh (known : Std.TreeSet α) (xs : List α) :
    (discover known xs).1.Nodup := by
  induction xs generalizing known with
  | nil => exact .nil
  | cons x xs ih =>
    rw [discover]
    split
    · exact ih known
    · refine List.nodup_cons.mpr ⟨fun again => ?_, ih _⟩
      exact (mem_discover_fresh.mp again).2 Std.TreeSet.mem_insert_self

def AtMost (valid : α → Prop) (bound : Nat) : Prop :=
  ∀ xs : List α, xs.Nodup → (∀ x ∈ xs, valid x) → xs.length ≤ bound

/-- What a search has done: the expanded nodes, then the queue, each node once, all of them valid
and known. -/
structure Progress (valid : α → Prop) (done : List α) (known : Std.TreeSet α) (queue : List α) :
    Prop where
  distinct : (done ++ queue).Nodup
  known : ∀ x, x ∈ known ↔ x ∈ done ++ queue
  valid : ∀ x ∈ done ++ queue, valid x

variable {valid : α → Prop} {next : α → List (Option α)}

theorem progress_start {start : α} (ok : valid start) :
    Progress valid [] (Std.TreeSet.empty.insert start) [start] := by
  refine ⟨by simp, fun x => ?_, by simpa using ok⟩
  rw [Std.TreeSet.mem_insert, Std.LawfulEqCmp.compare_eq_iff_eq]
  simp [eq_comm]

theorem Progress.step (keeps : ∀ x, valid x → ∀ y, some y ∈ next x → valid y) {done : List α}
    {known : Std.TreeSet α} {x : α} {queue : List α}
    (progress : Progress valid done known (x :: queue)) :
    Progress valid (done ++ [x]) (discover known ((next x).filterMap id)).2
      (queue ++ (discover known ((next x).filterMap id)).1) := by
  obtain ⟨distinct, seen, ok⟩ := progress
  have regroup (xs : List α) : done ++ [x] ++ (queue ++ xs) = done ++ x :: queue ++ xs := by simp
  constructor
  · rw [regroup, List.nodup_append]
    refine ⟨distinct, nodup_discover_fresh .., ?_⟩
    rintro y old _ new rfl
    exact (mem_discover_fresh.mp new).2 ((seen y).mpr old)
  · intro y
    rw [regroup, List.mem_append, mem_discover_known, mem_discover_fresh, seen]
    grind
  · intro y hy
    rw [regroup, List.mem_append] at hy
    rcases hy with old | new
    · exact ok y old
    · have successor := (mem_discover_fresh.mp new).1
      simp only [List.mem_filterMap, id_eq, exists_eq_right] at successor
      exact keeps x (ok x (by simp)) y successor

/-- A list of nodes with their successors that a search can end with after expanding `done`. -/
structure Exhausts (valid : α → Prop) (next : α → List (Option α)) (done queue : List α)
    (found : List (α × List (Option α))) : Prop where
  queued : queue <+: found.map Prod.fst
  distinct : (done ++ found.map Prod.fst).Nodup
  valid : ∀ e ∈ found, valid e.1
  expanded : ∀ e ∈ found, e.2 = next e.1
  closed : ∀ e ∈ found, ∀ y, some y ∈ e.2 → y ∈ done ++ found.map Prod.fst

theorem exhausts_expand (keeps : ∀ x, valid x → ∀ y, some y ∈ next x → valid y) {rounds : Nat}
    {done : List α} {known : Std.TreeSet α} {queue : List α}
    (progress : Progress valid done known queue) (bound : AtMost valid (done.length + rounds)) :
    Exhausts valid next done queue (expand next rounds known queue) := by
  induction rounds generalizing done known queue with
  | zero =>
    have full := bound _ progress.distinct progress.valid
    rw [List.length_append] at full
    obtain rfl : queue = [] := List.eq_nil_of_length_eq_zero (by omega)
    have distinct := progress.distinct
    exact ⟨List.nil_prefix, distinct, by simp [expand], by simp [expand], by simp [expand]⟩
  | succ rounds ih =>
    cases queue with
    | nil =>
      have distinct := progress.distinct
      exact ⟨List.nil_prefix, distinct, by simp [expand], by simp [expand], by simp [expand]⟩
    | cons x queue =>
      have after := progress.step keeps
      have enough : AtMost valid ((done ++ [x]).length + rounds) := by
        rw [List.length_append, List.length_singleton, Nat.add_assoc, Nat.add_comm 1]
        exact bound
      obtain ⟨queued, distinct, ok, expanded, closed⟩ := ih after enough
      have regroup (xs : List α) : done ++ [x] ++ xs = done ++ x :: xs := by simp
      rw [regroup] at distinct
      constructor
      · exact List.cons_prefix_cons.mpr ⟨rfl, (List.prefix_append _ _).trans queued⟩
      · exact distinct
      · intro e he
        rcases List.mem_cons.mp he with rfl | he
        · exact progress.valid x (by simp)
        · exact ok e he
      · intro e he
        rcases List.mem_cons.mp he with rfl | he
        · rfl
        · exact expanded e he
      · intro e he y hy
        show y ∈ done ++ x :: _
        rw [← regroup]
        rcases List.mem_cons.mp he with rfl | he
        · have met : y ∈ (discover known ((next x).filterMap id)).2 :=
            mem_discover_known.mpr (.inr (by simpa using hy))
          rcases List.mem_append.mp ((after.known y).mp met) with old | new
          · exact List.mem_append_left _ old
          · exact List.mem_append_right _ (queued.subset new)
        · exact closed e he y hy

/-- The nodes met from a start are closed under successors. -/
theorem exhausts_breadthFirst (keeps : ∀ x, valid x → ∀ y, some y ∈ next x → valid y)
    {start : α} (ok : valid start) {bound : Nat} (enough : AtMost valid bound) :
    Exhausts valid next [] [start] (breadthFirst next bound start) := by
  apply exhausts_expand keeps (progress_start ok)
  simpa using enough

/-! ### Searching under other names -/

section Renaming

variable {β : Type u} [Ord β] [Std.TransOrd β] [Std.LawfulEqOrd β] {rename : α → β}

/-- The names of valid nodes are known when the nodes are. -/
def KnownAs (valid : α → Prop) (rename : α → β) (known : Std.TreeSet α)
    (names : Std.TreeSet β) : Prop :=
  ∀ x, valid x → (rename x ∈ names ↔ x ∈ known)

variable (inj : ∀ x y, valid x → valid y → rename x = rename y → x = y)
include inj

theorem KnownAs.insert {known : Std.TreeSet α} {names : Std.TreeSet β}
    (same : KnownAs valid rename known names) {x : α} (ok : valid x) :
    KnownAs valid rename (known.insert x) (names.insert (rename x)) := by
  intro y hy
  rw [Std.TreeSet.mem_insert, Std.TreeSet.mem_insert, Std.LawfulEqCmp.compare_eq_iff_eq,
    Std.LawfulEqCmp.compare_eq_iff_eq, same y hy]
  refine or_congr_left ⟨inj x y ok hy, ?_⟩
  rintro rfl
  rfl

theorem KnownAs.start {x : α} (ok : valid x) : KnownAs valid rename
    (Std.TreeSet.empty.insert x) (Std.TreeSet.empty.insert (rename x)) := by
  have none : KnownAs valid rename .empty .empty := by
    intro y _
    simp
  exact none.insert inj ok

theorem discover_map {known : Std.TreeSet α} {names : Std.TreeSet β}
    (same : KnownAs valid rename known names) {xs : List α} (ok : ∀ x ∈ xs, valid x) :
    (discover names (xs.map rename)).1 = (discover known xs).1.map rename ∧
      KnownAs valid rename (discover known xs).2 (discover names (xs.map rename)).2 := by
  induction xs generalizing known names with
  | nil => exact ⟨rfl, same⟩
  | cons x xs ih =>
    obtain ⟨first, rest⟩ := List.forall_mem_cons.mp ok
    rw [List.map_cons, discover, discover]
    by_cases old : x ∈ known
    · rw [if_pos old, if_pos ((same x first).mpr old)]
      exact ih same rest
    · rw [if_neg old, if_neg (mt (same x first).mp old)]
      obtain ⟨fresh, known'⟩ := ih (same.insert inj first) rest
      exact ⟨congrArg _ fresh, known'⟩

variable (keeps : ∀ x, valid x → ∀ y, some y ∈ next x → valid y)
include keeps

/-- The names of new successors are the new names of successors. -/
theorem discover_successors {known : Std.TreeSet α} {names : Std.TreeSet β}
    (same : KnownAs valid rename known names) {x : α} (ok : valid x) :
    (discover names (((next x).map (Option.map rename)).filterMap id)).1 =
      (discover known ((next x).filterMap id)).1.map rename ∧
    KnownAs valid rename (discover known ((next x).filterMap id)).2
      (discover names (((next x).map (Option.map rename)).filterMap id)).2 := by
  have named : ((next x).map (Option.map rename)).filterMap id =
      ((next x).filterMap id).map rename := by
    rw [List.filterMap_map, List.map_filterMap]
    rfl
  rw [named]
  refine discover_map inj same fun y hy => ?_
  simp only [List.mem_filterMap, id_eq, exists_eq_right] at hy
  exact keeps x ok y hy

end Renaming

end FiniteAutomata.Search
