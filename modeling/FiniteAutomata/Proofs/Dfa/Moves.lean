import FiniteAutomata.Dfa.Minimize
import FiniteAutomata.Proofs.Dfa.Rows
import FiniteAutomata.Proofs.Except

/-!
Tables whose targets all name rows. Their rows move to rows, column by column, and these moves
decide which words are accepted.
-/

namespace FiniteAutomata.Dfa

variable {d e : Dfa} {i j n : Nat} {c : Char} {r : Row}

/-- Every target names a row. -/
def Closed (d : Dfa) : Prop :=
  ∀ r ∈ d.rows, ∀ target, some target ∈ r.targets → ∃ i, d.index? target = some i

instance (d : Dfa) : Decidable d.Closed :=
  decidable_of_iff (∀ r ∈ d.rows, ∀ t ∈ r.targets, ∀ target ∈ t, (d.index? target).isSome)
    ⟨fun all r member target named =>
      Option.isSome_iff_exists.mp (all r member _ named target rfl),
    fun closed r member _ named target same =>
      Option.isSome_iff_exists.mpr (closed r member target (same ▸ named))⟩

/-- The positions of the rows that the targets of a row name. -/
def moves (d : Dfa) (r : Row) : List (Option Nat) := r.targets.map (·.bind d.index?)

/-- The row that the column at a position leads to. -/
def move? (d : Dfa) (i n : Nat) : Option Nat :=
  (d.rows[i]?).bind fun r => (d.moves r)[n]?.join

theorem length_moves (member : r ∈ d.rows) : (d.moves r).length = d.alphabet.length := by
  rw [moves, List.length_map]
  exact d.length_targets r member

theorem move?_of_row (row : d.rows[i]? = some r) (n : Nat) : d.move? i n = (d.moves r)[n]?.join := by
  rw [move?, row, Option.bind_some]

theorem lt_size_of_mem_moves (member : some j ∈ d.moves r) : j < d.size := by
  obtain ⟨target, -, found⟩ := List.mem_map.mp member
  cases target with
  | none => cases found
  | some target => exact lt_size_of_index?_eq_some found

theorem lt_size_of_move? (moved : d.move? i n = some j) : j < d.size := by
  cases row : d.rows[i]? with
  | none =>
    rw [move?, row] at moved
    cases moved
  | some r =>
    rw [move?_of_row row, Option.join_eq_some_iff] at moved
    exact lt_size_of_mem_moves (List.mem_of_getElem? moved)

/-- Reading a character is moving by its column. -/
theorem step?_eq (d : Dfa) (i : Nat) (c : Char) : d.step? i c = (d.column? c).bind (d.move? i) := by
  rw [step?, target?]
  cases row : d.rows[i]? with
  | none => cases d.column? c <;> simp [move?, row]
  | some r =>
    cases d.column? c with
    | none => rfl
    | some n =>
      rw [Option.bind_some, move?_of_row row, moves, List.getElem?_map]
      cases target : r.targets[n]? with
      | none => simp [target]
      | some target' => simp [target]

theorem column?_congr (same : e.alphabet = d.alphabet) (c : Char) : e.column? c = d.column? c := by
  rw [column?, column?, same]

theorem lt_size_of_step? (stepped : d.step? i c = some j) : j < d.size := by
  rw [step?_eq, Option.bind_eq_some_iff] at stepped
  obtain ⟨n, -, moved⟩ := stepped
  exact lt_size_of_move? moved

theorem lt_size_of_foldlM {α : Type} {f : Nat → α → Option Nat}
    (inside : ∀ i a j, f i a = some j → j < d.size) (lt : i < d.size) {xs : List α}
    (done : xs.foldlM f i = some j) : j < d.size := by
  induction xs generalizing i with
  | nil =>
    obtain rfl := Option.some.inj done
    exact lt
  | cons a xs ih =>
    rw [List.foldlM_cons] at done
    obtain ⟨k, first, rest⟩ := Option.bind_eq_some_iff.mp done
    exact ih (inside i a k first) rest

theorem lt_size_of_follow (lt : i < d.size) {w : List Char} (followed : d.follow i w = some j) :
    j < d.size :=
  lt_size_of_foldlM (fun _ _ _ => lt_size_of_step?) lt followed

theorem follow_congr (same : ∀ i c, e.step? i c = d.step? i c) (i : Nat) (w : List Char) :
    e.follow i w = d.follow i w := by
  have steps : e.step? = d.step? := funext fun i => funext (same i)
  rw [follow, follow, steps]

theorem isAccepting_of_row (row : d.rows[i]? = some r) :
    d.isAccepting i = r.heading.accepts := by
  rw [isAccepting, row, Option.any_some]

/-- Whether a word leads from a row to an accepting row. -/
def acceptsFrom (d : Dfa) (i : Nat) (w : List Char) : Bool := (d.follow i w).any d.isAccepting

/-! ### Starting rows -/

/-- The row at a position starts, and no other row does. -/
structure StartsAt (d : Dfa) (s : Nat) : Prop where
  lt : s < d.size
  iff : ∀ i r, d.rows[i]? = some r → (r.heading.starts = true ↔ i = s)

theorem StartsAt.start?_eq {s : Nat} (starts : d.StartsAt s) : d.start? = some s := by
  rw [start?, List.findIdx?_eq_some_iff_getElem]
  refine ⟨starts.lt, ?_, fun j before starting => ?_⟩
  · exact (starts.iff s _ (List.getElem?_eq_getElem starts.lt)).mpr rfl
  · have lt := Nat.lt_trans before starts.lt
    have same := (starts.iff j _ (List.getElem?_eq_getElem lt)).mp starting
    exact absurd same (Nat.ne_of_lt before)

theorem StartsAt.accepts_eq {s : Nat} (starts : d.StartsAt s) (w : List Char) :
    d.accepts w = d.acceptsFrom s w := by
  rw [accepts, starts.start?_eq, Option.bind_some, acceptsFrom]

/-! ### Moves of closed tables -/

theorem Closed.targetIndices_eq_ok (closed : d.Closed) (member : r ∈ d.rows) :
    d.targetIndices r = .ok (d.moves r) := by
  have each : ∀ p ∈ r.targets.zip d.alphabet,
      resolve d.index? r.heading.label p.2 p.1 = .ok (p.1.bind d.index?) := by
    rintro ⟨target, c⟩ pair
    cases target with
    | none => rfl
    | some target =>
      obtain ⟨i, found⟩ := closed r member target (List.of_mem_zip pair).1
      show resolve d.index? r.heading.label c (some target) = .ok (d.index? target)
      rw [resolve, found]
  rw [targetIndices, resolveAll, mapM_eq_ok each, moves]
  have split : (r.targets.zip d.alphabet).map (fun p => p.1.bind d.index?) =
      ((r.targets.zip d.alphabet).map Prod.fst).map (·.bind d.index?) := by
    rw [List.map_map]
    rfl
  rw [split, List.map_fst_zip (Nat.le_of_eq (d.length_targets r member))]

theorem Closed.transitions_eq_ok (closed : d.Closed) :
    d.transitions = .ok (d.rows.map d.moves) := by
  rw [transitions_eq_mapM]
  exact mapM_eq_ok fun r member => closed.targetIndices_eq_ok member

end FiniteAutomata.Dfa
