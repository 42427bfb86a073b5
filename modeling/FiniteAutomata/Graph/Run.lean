import FiniteAutomata.Graph.Reachable

/-!
Runs through a graph. A run follows edges, and the characters on them spell its word. `mem_after`
says that reading a word keeps exactly the ends of its runs.
-/

namespace FiniteAutomata.Graph

/-- `g.Run i w j` says that edges lead from `i` to `j` whose characters spell `w`. -/
inductive Run (g : Graph) : Nat → List Char → Nat → Prop where
  | stop (i : Nat) : Run g i [] i
  | silent {i j k : Nat} {w : List Char} : j ∈ g.targets i .epsilon → Run g j w k → Run g i w k
  | read {i j k : Nat} {c : Char} {w : List Char} :
    j ∈ g.targets i (.char c) → Run g j w k → Run g i (c :: w) k

theorem Run.append {g : Graph} {i j k : Nat} {v w : List Char} (h : g.Run i v j)
    (h' : g.Run j w k) : g.Run i (v ++ w) k := by
  induction h with
  | stop => exact h'
  | silent e _ ih => exact .silent e (ih h')
  | read e _ ih => exact .read e (ih h')

theorem mem_silentlyReachable {g : Graph} {starts : List Nat} {j : Nat} :
    j ∈ g.silentlyReachable starts ↔ ∃ i ∈ starts, i < g.size ∧ g.Run i [] j := by
  rw [silentlyReachable, Search.mem_preorder_iff]
  constructor
  · rintro ⟨i, hi, h⟩
    refine ⟨i, hi, ?_⟩
    clear hi
    induction h with
    | here m => exact ⟨Search.Unseen.mem_below.mp m, .stop _⟩
    | step m e _ ih => exact ⟨Search.Unseen.mem_below.mp m, .silent e ih.2⟩
  · rintro ⟨i, hi, lt, h⟩
    refine ⟨i, hi, ?_⟩
    clear hi
    generalize hw : ([] : List Char) = w at h
    induction h with
    | stop => exact .here (Search.Unseen.mem_below.mpr lt)
    | silent e _ ih =>
      exact .step (Search.Unseen.mem_below.mpr lt) e (ih (lt_size_of_mem_targets e) hw)
    | read => simp at hw

/-- A run that reads a character first follows epsilon edges and then an edge on it. -/
theorem run_cons_iff {g : Graph} {i k : Nat} {c : Char} {w : List Char} :
    g.Run i (c :: w) k ↔
      ∃ j, g.Run i [] j ∧ ∃ j' ∈ g.targets j (.char c), g.Run j' w k := by
  constructor
  · intro h
    generalize hv : c :: w = v at h
    induction h with
    | stop => simp at hv
    | silent e _ ih =>
      obtain ⟨j, h, rest⟩ := ih hv
      exact ⟨j, .silent e h, rest⟩
    | @read i j k d w e h _ =>
      obtain ⟨rfl, rfl⟩ := List.cons.inj hv
      exact ⟨i, .stop i, j, e, h⟩
  · rintro ⟨j, h, j', e, h'⟩
    exact h.append (.read e h')

theorem mem_foldl_read {g : Graph} {current : List Nat} {w : List Char} {k : Nat} :
    k ∈ w.foldl g.read (g.silentlyReachable current) ↔ ∃ i ∈ current, i < g.size ∧ g.Run i w k := by
  induction w generalizing current with
  | nil => exact mem_silentlyReachable
  | cons c w ih =>
    rw [List.foldl_cons, read, ih]
    simp only [List.mem_flatMap, mem_silentlyReachable, run_cons_iff]
    constructor
    · rintro ⟨j', ⟨j, ⟨i, hi, lt, h⟩, e⟩, -, h'⟩
      exact ⟨i, hi, lt, j, h, j', e, h'⟩
    · rintro ⟨i, hi, lt, j, h, j', e, h'⟩
      exact ⟨j', ⟨j, ⟨i, hi, lt, h⟩, e⟩, lt_size_of_mem_targets e, h'⟩

theorem mem_after {g : Graph} {i k : Nat} {w : List Char} :
    k ∈ g.after i w ↔ i < g.size ∧ g.Run i w k := by
  rw [after, mem_foldl_read]
  simp

end FiniteAutomata.Graph
