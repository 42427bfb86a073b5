import FiniteAutomata.Proofs.Dfa.Moves
import Mathlib.Data.Option.Basic

/-!
Walks through a table by column positions. Rows are alike when walks by the same columns exist from
both or from neither and end in rows with the same mark; up to a number of columns this is decided
by the marks of the rows and by the rows that one column leads to (`alikeUpTo_succ_iff`).
-/

namespace FiniteAutomata.Dfa

variable {d : Dfa} {i j k n : Nat} {columns : List Nat}

/-- The row that a sequence of columns leads to. -/
def walk (d : Dfa) (i : Nat) (columns : List Nat) : Option Nat := columns.foldlM d.move? i

/-- The mark of the row that a sequence of columns leads to, if it leads to one. -/
def outcome (d : Dfa) (i : Nat) (columns : List Nat) : Option Bool :=
  (d.walk i columns).map d.isAccepting

/-- No sequence of at most `k` columns tells the two rows apart. -/
def AlikeUpTo (d : Dfa) (k i j : Nat) : Prop :=
  ∀ columns : List Nat, (∀ n ∈ columns, n < d.alphabet.length) → columns.length ≤ k →
    d.outcome i columns = d.outcome j columns

/-- No sequence of columns tells the two rows apart. -/
def Alike (d : Dfa) (i j : Nat) : Prop :=
  ∀ columns : List Nat, (∀ n ∈ columns, n < d.alphabet.length) →
    d.outcome i columns = d.outcome j columns

theorem walk_cons (d : Dfa) (i n : Nat) (columns : List Nat) :
    d.walk i (n :: columns) = (d.move? i n).bind (d.walk · columns) := by
  rw [walk, List.foldlM_cons]
  rfl

theorem outcome_nil (d : Dfa) (i : Nat) : d.outcome i [] = some (d.isAccepting i) := rfl

theorem outcome_cons (d : Dfa) (i n : Nat) (columns : List Nat) :
    d.outcome i (n :: columns) = (d.move? i n).bind (d.outcome · columns) := by
  rw [outcome, walk_cons, Option.map_bind]
  rfl

theorem lt_size_of_walk (lt : i < d.size) (walked : d.walk i columns = some j) : j < d.size :=
  lt_size_of_foldlM (fun _ _ _ => lt_size_of_move?) lt walked

theorem getElem?_moves {r : Row} (row : d.rows[i]? = some r) (lt : n < d.alphabet.length) :
    (d.moves r)[n]? = some (d.move? i n) := by
  have width : (d.moves r).length = d.alphabet.length := length_moves (List.mem_of_getElem? row)
  rw [move?_of_row row, List.getElem?_eq_getElem (by rwa [width])]
  rfl

/-! ### Alike rows -/

theorem AlikeUpTo.mono (alike : d.AlikeUpTo k i j) {l : Nat} (le : l ≤ k) : d.AlikeUpTo l i j :=
  fun columns inside short => alike columns inside (Nat.le_trans short le)

theorem alikeUpTo_zero_iff : d.AlikeUpTo 0 i j ↔ d.isAccepting i = d.isAccepting j := by
  constructor
  · intro alike
    exact Option.some.inj (alike [] (by simp) (Nat.le_refl 0))
  · intro same columns _ short
    obtain rfl := List.eq_nil_of_length_eq_zero (Nat.le_zero.mp short)
    rw [outcome_nil, outcome_nil, same]

/-- One more column: the rows it leads to are alike, or there are none. -/
theorem alikeUpTo_succ_iff : d.AlikeUpTo (k + 1) i j ↔ d.isAccepting i = d.isAccepting j ∧
    ∀ n < d.alphabet.length, Option.Rel (d.AlikeUpTo k) (d.move? i n) (d.move? j n) := by
  constructor
  · intro alike
    refine ⟨alikeUpTo_zero_iff.mp (alike.mono (Nat.zero_le _)), fun n lt => ?_⟩
    have after (columns : List Nat) (inside : ∀ m ∈ columns, m < d.alphabet.length)
        (short : columns.length ≤ k) :
        (d.move? i n).bind (d.outcome · columns) = (d.move? j n).bind (d.outcome · columns) := by
      rw [← outcome_cons, ← outcome_cons]
      exact alike _ (List.forall_mem_cons.mpr ⟨lt, inside⟩) (Nat.succ_le_succ short)
    have first := after [] (by simp) (Nat.zero_le k)
    cases left : d.move? i n with
    | none =>
      cases right : d.move? j n with
      | none => exact .none
      | some j' => simp [left, right, outcome_nil] at first
    | some i' =>
      cases right : d.move? j n with
      | none => simp [left, right, outcome_nil] at first
      | some j' =>
        rw [left, right] at after
        exact .some after
  · rintro ⟨same, moves⟩ columns inside short
    cases columns with
    | nil => rw [outcome_nil, outcome_nil, same]
    | cons n columns =>
      obtain ⟨lt, inside⟩ := List.forall_mem_cons.mp inside
      have moved := moves n lt
      rw [outcome_cons, outcome_cons]
      generalize d.move? i n = left, d.move? j n = right at moved ⊢
      cases moved with
      | none => rfl
      | some alike => exact alike columns inside (Nat.le_of_succ_le_succ short)

theorem alike_iff_alikeUpTo : d.Alike i j ↔ ∀ k, d.AlikeUpTo k i j := by
  constructor
  · intro alike k columns inside _
    exact alike columns inside
  · intro alike columns inside
    exact alike columns.length columns inside (Nat.le_refl _)

/-! ### Words -/

/-- A word is a sequence of columns, unless it has a symbol that no row can read. -/
theorem exists_walk_eq_follow (d : Dfa) (w : List Char) : (∀ i, d.follow i w = none) ∨
    ∃ columns : List Nat, (∀ n ∈ columns, n < d.alphabet.length) ∧
      ∀ i, d.follow i w = d.walk i columns := by
  induction w with
  | nil => exact .inr ⟨[], by simp, fun _ => rfl⟩
  | cons c w ih =>
    simp only [follow_cons, step?_eq]
    cases column : d.column? c with
    | none => exact .inl fun _ => rfl
    | some n =>
      obtain ⟨lt, -⟩ := List.findIdx?_eq_some_iff_getElem.mp column
      rcases ih with stuck | ⟨columns, inside, same⟩
      · refine .inl fun i => ?_
        rw [Option.bind_some, funext stuck, Option.bind_fun_none]
      · refine .inr ⟨n :: columns, List.forall_mem_cons.mpr ⟨lt, inside⟩, fun i => ?_⟩
        rw [Option.bind_some, walk_cons, funext same]

theorem Alike.acceptsFrom_eq (alike : d.Alike i j) (w : List Char) :
    d.acceptsFrom i w = d.acceptsFrom j w := by
  rw [acceptsFrom, acceptsFrom]
  rcases d.exists_walk_eq_follow w with stuck | ⟨columns, inside, same⟩
  · rw [stuck, stuck]
  · have outcome := alike columns inside
    rw [Dfa.outcome, Dfa.outcome, ← same, ← same] at outcome
    have marks := congrArg (Option.any id) outcome
    rwa [Option.any_map, Option.any_map] at marks

end FiniteAutomata.Dfa
