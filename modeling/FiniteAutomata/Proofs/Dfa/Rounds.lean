import FiniteAutomata.Proofs.Dfa.Minimize

/-!
Refining a partition again and again until nothing changes. `Rounds` is this loop without a bound on
its length. It always ends, because every round but the last leaves more blocks, of which there are
never more than rows; so the bound that `refinements` has cuts nothing off.
-/

namespace FiniteAutomata

namespace Partition

variable {n k : Nat} {p q : Partition} {ps qs : List Partition} {moves : Array (List (Option Nat))}

/-- The partitions that refining `p` goes through, up to the first that equals its predecessor. -/
inductive Rounds (moves : Array (List (Option Nat))) : Partition → List Partition → Prop where
  | stop {p : Partition} (same : p.refine moves = p) : Rounds moves p [p, p.refine moves]
  | split {p : Partition} {ps : List Partition} (changed : p.refine moves ≠ p)
      (rest : Rounds moves (p.refine moves) ps) : Rounds moves p (p :: ps)

/-- The loop ends within any bound that allows one round for every block that may still be added. -/
theorem rounds_refinements (inside : Inside moves) (of : Of n p) {rounds : Nat}
    (enough : n ≤ blockCount p + rounds) : Rounds moves p (refinements moves rounds p) := by
  induction rounds generalizing p with
  | zero =>
    -- There are as many blocks as rows, so no block can be added.
    refine .stop ?_
    by_contra changed
    have more := blockCount_lt_refine inside changed
    have most := (of.refine inside).blockCount_le
    omega
  | succ rounds ih =>
    rw [refinements]
    split
    · next same => exact .stop same
    · next changed =>
      have more := blockCount_lt_refine inside changed
      exact .split changed (ih (of.refine inside) (by omega))

namespace Rounds

theorem unique (first : Rounds moves p ps) (second : Rounds moves p qs) : ps = qs := by
  induction first generalizing qs with
  | stop same =>
    cases second with
    | stop => rfl
    | split changed => exact absurd same changed
  | split changed _ ih =>
    cases second with
    | stop same => exact absurd same changed
    | split _ rest => rw [ih rest]

theorem exists_eq_cons (rounds : Rounds moves p ps) : ∃ qs, ps = p :: p.refine moves :: qs := by
  cases rounds with
  | stop => exact ⟨[], rfl⟩
  | split _ rest =>
    cases rest with
    | stop => exact ⟨_, rfl⟩
    | split => exact ⟨_, rfl⟩

theorem exists_eq_append (rounds : Rounds moves p ps) : ∃ qs q, ps = qs ++ [q, q] := by
  induction rounds with
  | @stop p same => exact ⟨[], p, by rw [same, List.nil_append]⟩
  | @split p _ _ _ ih =>
    obtain ⟨qs, q, rfl⟩ := ih
    exact ⟨p :: qs, q, rfl⟩

/-- What is true at the beginning and kept by every refinement is true of the partition after any
number of rounds. -/
theorem of_getElem? {P : Nat → Partition → Prop} (rounds : Rounds moves p ps) (start : P k p)
    (step : ∀ k p, P k p → P (k + 1) (p.refine moves)) {m : Nat} (made : ps[m]? = some q) :
    P (k + m) q := by
  induction rounds generalizing k m with
  | stop =>
    match m with
    | 0 => exact Option.some.inj made ▸ start
    | 1 => exact Option.some.inj made ▸ step _ _ start
    | m + 2 => cases made
  | split _ _ ih =>
    cases m with
    | zero => exact Option.some.inj made ▸ start
    | succ m =>
      have later := ih (step _ _ start) made
      rwa [Nat.add_assoc, Nat.add_comm 1] at later

theorem exists_getLast? {P : Partition → Prop} (rounds : Rounds moves p ps) (start : P p)
    (step : ∀ p, P p → P (p.refine moves)) :
    ∃ q, ps.getLast? = some q ∧ q.refine moves = q ∧ P q := by
  induction rounds with
  | @stop p same => exact ⟨p, by rw [same]; rfl, same, start⟩
  | split _ _ ih =>
    obtain ⟨q, last, rest⟩ := ih (step _ start)
    exact ⟨q, by rw [List.getLast?_cons, last]; rfl, rest⟩

end Rounds

/-! ### What a round does to the blocks -/

/-- One or more parts of a block, each in the order of the block, that together have its rows. -/
structure PartsOf (block : List Nat) (parts : Partition) : Prop where
  some : parts ≠ []
  sublist : ∀ part ∈ parts, part.Sublist block
  perm : parts.flatten.Perm block

/-- Every block of `p` is replaced in place by parts of it. -/
def Splits (p q : Partition) : Prop := ∃ parts, List.Forall₂ PartsOf p parts ∧ q = parts.flatten

theorem splitBy_ne_nil {β : Type} [DecidableEq β] (f : Nat → β) (block : List Nat) :
    splitBy f block ≠ [] := by
  by_cases some : block = []
  · subst some
    exact List.cons_ne_nil _ _
  · obtain ⟨i, hi⟩ := List.exists_mem_of_ne_nil _ some
    exact List.ne_nil_of_mem ((mem_splitBy some).mpr ⟨i, hi, rfl⟩)

theorem splits_refine (inside : Inside moves) (of : Of n p) : p.Splits (p.refine moves) := by
  refine ⟨p.map (splitBy (p.target moves)), ?_, ?_⟩
  · rw [List.forall₂_map_right_iff, List.forall₂_same]
    intro block member
    exact ⟨splitBy_ne_nil _ block, fun _ => sublist_of_mem_splitBy,
      flatten_splitBy_perm (of.nodup_block member)⟩
  · rw [refine_eq inside, List.flatMap_def]

theorem Of.blockCount_pos (of : Of n p) (pos : 0 < n) : 0 < blockCount p := by
  obtain ⟨block, member, hi⟩ := of.exists_block pos
  exact List.countP_pos_iff.mpr ⟨block, member, by simpa using List.ne_nil_of_mem hi⟩

namespace Rounds

variable (rounds : Rounds moves p ps) (inside : Inside moves)
include rounds inside

theorem isChain_splits (of : Of n p) : ps.IsChain Splits := by
  induction rounds with
  | stop => exact .cons_cons (splits_refine inside of) (.singleton _)
  | split _ rest ih =>
    obtain ⟨qs, rfl⟩ := rest.exists_eq_cons
    exact .cons_cons (splits_refine inside of) (ih (of.refine inside))

theorem isChain_blockCount_lt : ps.dropLast.IsChain (blockCount · < blockCount ·) := by
  induction rounds with
  | stop => exact .singleton _
  | split changed rest ih =>
    obtain ⟨qs, rfl⟩ := rest.exists_eq_cons
    exact .cons_cons (blockCount_lt_refine inside changed) ih

theorem length_add_blockCount_le (of : Of n p) : ps.length + blockCount p ≤ n + 2 := by
  induction rounds with
  | @stop p _ =>
    have most := of.blockCount_le
    rw [List.length_cons, List.length_singleton]
    omega
  | @split p ps changed _ ih =>
    have later := ih (of.refine inside)
    have more := blockCount_lt_refine inside changed
    rw [List.length_cons]
    omega

end Rounds

end Partition

namespace Dfa

variable {d : Dfa}

def allPartitions (d : Dfa) : List Partition :=
  Partition.refinements d.allMoves.toArray d.size d.byAcceptance

theorem Closed.partitions_eq_ok (closed : d.Closed) : d.partitions = .ok d.allPartitions := by
  rw [partitions, closed.transitions_eq_ok]
  rfl

theorem rounds_allPartitions (d : Dfa) :
    Partition.Rounds d.allMoves.toArray d.byAcceptance d.allPartitions :=
  Partition.rounds_refinements d.inside_allMoves d.of_byAcceptance (Nat.le_add_left _ _)

/-- Refining the rejecting and the accepting rows ends after at most as many rounds as there are
rows. Every round splits blocks in place, and every round but the last makes more blocks. -/
theorem Closed.exists_partitions_rounds (closed : d.Closed) :
    ∃ moves ps, d.transitions = .ok moves ∧ d.partitions = .ok ps ∧
      (∀ qs, Partition.Rounds moves.toArray d.byAcceptance qs ↔ qs = ps) ∧
      2 ≤ ps.length ∧ (1 ≤ d.size → ps.length ≤ d.size + 1) ∧ (d.size = 0 → ps.length = 2) ∧
      ps.IsChain Partition.Splits ∧
      ps.dropLast.IsChain (fun p q => p.blockCount < q.blockCount) ∧
      ∃ qs p, ps = qs ++ [p, p] := by
  have rounds := d.rounds_allPartitions
  have most := rounds.length_add_blockCount_le d.inside_allMoves d.of_byAcceptance
  obtain ⟨qs, p, last⟩ := rounds.exists_eq_append
  have least : 2 ≤ d.allPartitions.length := by
    rw [last, List.length_append]
    exact Nat.le_add_left 2 qs.length
  refine ⟨d.allMoves, d.allPartitions, closed.transitions_eq_ok, closed.partitions_eq_ok,
    fun qs => ⟨?_, ?_⟩, least, fun some => ?_, fun none => ?_,
    rounds.isChain_splits d.inside_allMoves d.of_byAcceptance,
    rounds.isChain_blockCount_lt d.inside_allMoves, qs, p, last⟩
  · exact fun other => other.unique rounds
  · rintro rfl
    exact rounds
  · -- With a row there is a block to begin with.
    have blocks := d.of_byAcceptance.blockCount_pos some
    omega
  · omega

/-- Three rows that are only told apart one by one. -/
def countdown : Dfa where
  alphabet := ['a']
  rows := [⟨⟨"3", true, false⟩, [some "2"]⟩, ⟨⟨"2", false, false⟩, [some "1"]⟩,
    ⟨⟨"1", false, false⟩, [none]⟩]
  length_targets := by decide
  nodup_labels := by decide

theorem exists_partitions_rounds_countdown : countdown.Closed ∧
    ∃ moves ps, countdown.transitions = .ok moves ∧ countdown.partitions = .ok ps ∧
      (∀ qs, Partition.Rounds moves.toArray countdown.byAcceptance qs ↔ qs = ps) ∧
      2 ≤ ps.length ∧ (1 ≤ countdown.size → ps.length ≤ countdown.size + 1) ∧
      (countdown.size = 0 → ps.length = 2) ∧
      ps.IsChain Partition.Splits ∧
      ps.dropLast.IsChain (fun p q => p.blockCount < q.blockCount) ∧
      ∃ qs p, ps = qs ++ [p, p] :=
  ⟨by decide, Closed.exists_partitions_rounds (by decide)⟩

example : countdown.partitions = .ok [
    [[0, 1, 2], []],
    [[0, 1], [2], []],
    [[0], [1], [2], []],
    [[0], [1], [2], []]] := by decide +kernel

end Dfa

end FiniteAutomata
