import FiniteAutomata.Proofs.Dfa.Equivalence
import FiniteAutomata.Proofs.Dfa.Relabel
import Mathlib.Data.Finset.Card

/-!
Trim tables: every row lies on the way of an accepted word. If moreover no two rows accept the same
words, no table for these words has fewer rows. The columns of a trim table tell apart what its words
tell apart, so merging its alike rows leaves such a table.
-/

namespace FiniteAutomata.Dfa

variable {d e m : Dfa} {p : Partition} {i j k n s : Nat} {v w : List Char}

theorem follow_append (d : Dfa) (i : Nat) (v w : List Char) :
    d.follow i (v ++ w) = (d.follow i v).bind (d.follow · w) := by
  rw [follow, List.foldlM_append]
  rfl

theorem acceptsFrom_append (followed : d.follow i v = some j) (w : List Char) :
    d.acceptsFrom i (v ++ w) = d.acceptsFrom j w := by
  rw [acceptsFrom, follow_append, followed, Option.bind_some, acceptsFrom]

theorem acceptsFrom_append_of_none (stuck : d.follow i v = none) (w : List Char) :
    d.acceptsFrom i (v ++ w) = false := by
  rw [acceptsFrom, follow_append, stuck]
  rfl

/-- Every row can be reached from the row at `s` and can reach an accepting row. -/
structure Trim (d : Dfa) (s : Nat) : Prop where
  reached : ∀ i < d.size, ∃ w, d.follow s w = some i
  live : ∀ i < d.size, ∃ w, d.acceptsFrom i w = true

/-! ### The least number of rows -/

/-- A table for the same words has, for every row of a trim one, a row that accepts as much. -/
theorem Trim.exists_row_acceptsFrom_eq (trim : d.Trim s) (starts : d.StartsAt s)
    (same : ∀ w, e.accepts w = d.accepts w) (lt : i < d.size) :
    ∃ k < e.size, ∀ w, e.acceptsFrom k w = d.acceptsFrom i w := by
  obtain ⟨v, reached⟩ := trim.reached i lt
  have after (w : List Char) : e.accepts (v ++ w) = d.acceptsFrom i w := by
    rw [same, starts.accepts_eq, acceptsFrom_append reached]
  obtain ⟨w, live⟩ := trim.live i lt
  rw [← after] at live
  cases start : e.start? with
  | none =>
    rw [accepts, start] at live
    cases live
  | some t =>
    have accepts (w : List Char) : e.accepts w = e.acceptsFrom t w := by
      rw [Dfa.accepts, start, Option.bind_some, acceptsFrom]
    -- The word that leads to row `i` leads to a row of `e`, because row `i` is live.
    cases followed : e.follow t v with
    | none =>
      rw [accepts, acceptsFrom_append_of_none followed] at live
      cases live
    | some k =>
      obtain ⟨lt, -⟩ := List.findIdx?_eq_some_iff_getElem.mp start
      refine ⟨k, lt_size_of_follow lt followed, fun w => ?_⟩
      rw [← acceptsFrom_append followed, ← accepts, after]

theorem Trim.size_le (trim : d.Trim s) (starts : d.StartsAt s)
    (distinct : ∀ i < d.size, ∀ j < d.size,
      (∀ w, d.acceptsFrom i w = d.acceptsFrom j w) → i = j)
    (same : ∀ w, e.accepts w = d.accepts w) : d.size ≤ e.size := by
  have rows (i : Nat) (lt : i < d.size) := trim.exists_row_acceptsFrom_eq starts same lt
  choose! row lt accepts using rows
  rw [← Finset.card_range d.size, ← Finset.card_range e.size]
  apply Finset.card_le_card_of_injOn row
  · intro i hi
    simpa using lt i (by simpa using hi)
  · intro i hi j hj shared
    have hi : i < d.size := by simpa using hi
    have hj : j < d.size := by simpa using hj
    apply distinct i hi j hj
    intro w
    rw [← accepts i hi, shared, accepts j hj]

/-! ### Columns and words -/

theorem step?_getElem (distinct : d.alphabet.Nodup) (lt : n < d.alphabet.length) :
    d.step? i d.alphabet[n] = d.move? i n := by
  have column : d.column? d.alphabet[n] = some n := by
    rw [column?, List.findIdx?_eq_some_iff_getElem]
    refine ⟨lt, by simp, fun m less same => ?_⟩
    have equal : d.alphabet[m] = d.alphabet[n] := by simpa using same
    exact Nat.ne_of_lt less ((distinct.getElem_inj_iff).mp equal)
  rw [step?_eq, column, Option.bind_some]

theorem exists_follow_eq_walk (distinct : d.alphabet.Nodup) {columns : List Nat}
    (inside : ∀ n ∈ columns, n < d.alphabet.length) :
    ∃ w, ∀ i, d.follow i w = d.walk i columns := by
  induction columns with
  | nil => exact ⟨[], fun _ => rfl⟩
  | cons n columns ih =>
    obtain ⟨lt, inside⟩ := List.forall_mem_cons.mp inside
    obtain ⟨w, same⟩ := ih inside
    refine ⟨d.alphabet[n] :: w, fun i => ?_⟩
    rw [follow_cons, walk_cons, step?_getElem distinct lt, funext same]

/-- Where every row is live, it is known of a word whether it leads to a row at all. -/
theorem map_isAccepting_follow_eq (live : ∀ i < d.size, ∃ w, d.acceptsFrom i w = true)
    (hi : i < d.size) (hj : j < d.size) (same : ∀ w, d.acceptsFrom i w = d.acceptsFrom j w)
    (w : List Char) :
    (d.follow i w).map d.isAccepting = (d.follow j w).map d.isAccepting := by
  have stuck {i j k : Nat} (hj : j < d.size) (same : ∀ w, d.acceptsFrom i w = d.acceptsFrom j w)
      (left : d.follow i w = none) (right : d.follow j w = some k) : False := by
    obtain ⟨v, accepted⟩ := live k (lt_size_of_follow hj right)
    rw [← acceptsFrom_append right, ← same, acceptsFrom_append_of_none left] at accepted
    cases accepted
  cases left : d.follow i w with
  | none =>
    cases right : d.follow j w with
    | none => rfl
    | some l => exact (stuck hj same left right).elim
  | some k =>
    cases right : d.follow j w with
    | none => exact (stuck hi (fun w => (same w).symm) right left).elim
    | some l =>
      have marks := same w
      rw [acceptsFrom, acceptsFrom, left, right] at marks
      exact congrArg some marks

theorem Trim.alike (trim : d.Trim s) (distinct : d.alphabet.Nodup) (hi : i < d.size)
    (hj : j < d.size) (same : ∀ w, d.acceptsFrom i w = d.acceptsFrom j w) : d.Alike i j := by
  intro columns inside
  obtain ⟨w, follow⟩ := exists_follow_eq_walk distinct inside
  rw [outcome, outcome, ← follow, ← follow]
  exact map_isAccepting_follow_eq trim.live hi hj same w

/-! ### Renamed and merged tables -/

theorem SameShape.trim (shape : SameShape d e) (trim : d.Trim s) : e.Trim s := by
  constructor
  · intro i lt
    obtain ⟨w, reached⟩ := trim.reached i (shape.size ▸ lt)
    exact ⟨w, (follow_congr shape.step?_eq s w).trans reached⟩
  · intro i lt
    obtain ⟨w, live⟩ := trim.live i (shape.size ▸ lt)
    exact ⟨w, (shape.acceptsFrom_eq i w).trans live⟩

theorem Renamed.trim (renamed : Renamed d e) (trim : d.Trim s) : e.Trim s :=
  renamed.sameShape.trim trim

section Merging

variable (respects : d.Respects p) (merged : d.Merged p m)
include respects merged

theorem trim_place (trim : d.Trim s) (lt : s < d.size) (spot : d.place p m s = some k) :
    m.Trim k := by
  constructor
  · intro l hl
    obtain ⟨i, hi, spot'⟩ := merged.exists_place_eq hl
    obtain ⟨w, reached⟩ := trim.reached i hi
    refine ⟨w, ?_⟩
    rw [follow_place respects merged lt spot, reached, Option.bind_some, spot']
  · intro l hl
    obtain ⟨i, hi, spot'⟩ := merged.exists_place_eq hl
    obtain ⟨w, live⟩ := trim.live i hi
    exact ⟨w, (acceptsFrom_place respects merged hi spot' w).trans live⟩

/-- Rows of the merged table that accept the same words come from alike rows, which were merged. -/
theorem eq_of_acceptsFrom_eq (classifies : d.Classifies d.Alike p) (trim : d.Trim s)
    (distinct : d.alphabet.Nodup) (hi : i < m.size) (hj : j < m.size)
    (same : ∀ w, m.acceptsFrom i w = m.acceptsFrom j w) : i = j := by
  obtain ⟨i', hi', spot⟩ := merged.exists_place_eq hi
  obtain ⟨j', hj', spot'⟩ := merged.exists_place_eq hj
  have alike : d.Alike i' j' := by
    apply trim.alike distinct hi' hj'
    intro w
    rw [← acceptsFrom_place respects merged hi' spot, same, acceptsFrom_place respects merged hj' spot']
  rw [classifies.place_eq hi' hj' alike, spot'] at spot
  exact (Option.some.inj spot).symm

end Merging

/-- Merging a trim table that starts in one row leaves as few rows as any table for its words has. -/
theorem Closed.exists_minimize_size_le (closed : d.Closed) (starts : d.StartsAt s) (trim : d.Trim s)
    (distinct : d.alphabet.Nodup) : ∃ m, d.minimize = .ok m ∧ (∀ w, m.accepts w = d.accepts w) ∧
      ∀ e : Dfa, (∀ w, e.accepts w = d.accepts w) → m.size ≤ e.size := by
  obtain ⟨p, m, made, respects, classifies, merged, -⟩ := closed.exists_minimize_classifies
  obtain ⟨k, -, -, spot, -⟩ := exists_place respects merged starts.lt
  have accepts := accepts_place respects merged starts
  refine ⟨m, made, accepts, fun e same => ?_⟩
  apply (trim_place respects merged trim starts.lt spot).size_le
    (startsAt_place respects merged starts spot)
  · exact fun i hi j hj => eq_of_acceptsFrom_eq respects merged classifies trim distinct hi hj
  · exact fun w => (same w).trans (accepts w).symm

end FiniteAutomata.Dfa
