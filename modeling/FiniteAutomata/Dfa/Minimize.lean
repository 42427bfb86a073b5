import FiniteAutomata.Dfa.Basic

/-!
Merging the rows of a table that behave alike, and renaming rows. Starting from rejecting and
accepting rows, blocks of rows are split until the rows of each block move into the same blocks. Each
block of the final partition is represented by its first row; the representatives stay in table
order. Rows are renamed to `q0`, `q1`, … in row order.
-/

namespace FiniteAutomata

/-- Blocks of row positions. A block keeps the order of the table and may be empty. -/
abbrev Partition := List (List Nat)

namespace Partition

/-! ### Blocks of rows -/

/-- The first block that holds a row; empty if there is none. -/
def blockOf (p : Partition) (i : Nat) : List Nat := (p.find? (i ∈ ·)).getD []

/-- The row that stands for the rows of a block: the first, or `i` if there is none. -/
def representative (block : List Nat) (i : Nat) : Nat := block.headD i

/-- Sets the block of all rows in a list. -/
def assign (block rows : List Nat) (blocks : Array (List Nat)) : Array (List Nat) :=
  rows.foldl (fun blocks i => blocks.setIfInBounds i block) blocks

/-- The blocks of the first `size` rows. -/
def blocks (size : Nat) : Partition → Array (List Nat)
  | [] => Array.replicate size []
  | block :: p => assign block block (blocks size p)

theorem size_assign (block rows : List Nat) (blocks : Array (List Nat)) :
    (assign block rows blocks).size = blocks.size := by
  unfold assign
  induction rows generalizing blocks with
  | nil => rfl
  | cons j rows ih => rw [List.foldl_cons, ih, Array.size_setIfInBounds]

theorem size_blocks (size : Nat) (p : Partition) : (p.blocks size).size = size := by
  induction p with
  | nil => exact Array.size_replicate
  | cons block p ih => rw [blocks, size_assign, ih]

theorem getElem?_assign (block rows : List Nat) {blocks : Array (List Nat)} {i : Nat}
    (hi : i < blocks.size) :
    (assign block rows blocks)[i]? = if i ∈ rows then some block else blocks[i]? := by
  unfold assign
  induction rows generalizing blocks with
  | nil => simp
  | cons j rows ih =>
    rw [List.foldl_cons, ih (by rwa [Array.size_setIfInBounds]), Array.getElem?_setIfInBounds]
    grind

theorem getElem?_blocks {size : Nat} (p : Partition) {i : Nat} (hi : i < size) :
    (p.blocks size)[i]? = some (p.blockOf i) := by
  induction p with
  | nil => simp [blocks, blockOf, hi]
  | cons block p ih =>
    rw [blocks, getElem?_assign block block (by rwa [size_blocks]), ih, blockOf, blockOf,
      List.find?_cons]
    by_cases h : i ∈ block <;> simp [h]

theorem getD_blocks {size : Nat} (p : Partition) {i : Nat} (hi : i < size) :
    (p.blocks size).getD i [] = p.blockOf i := by
  rw [Array.getD_eq_getD_getElem?, getElem?_blocks p hi, Option.getD_some]

/-! ### Refinement -/

/-- The representatives of the blocks that a row with the given moves leads to, symbol by symbol. -/
def signature (blockOf : Nat → List Nat) (moves : List (Option Nat)) : List (Option Nat) :=
  moves.map (Option.map fun j => representative (blockOf j) j)

/-- Puts a row last into the first part whose first row has the same value. If there is none, the row
begins a part behind all others. -/
def joinPart {β : Type} [DecidableEq β] (f : Nat → β) (i : Nat) : List (Array Nat) → List (Array Nat)
  | [] => [#[i]]
  | part :: parts =>
    if part[0]?.map f = some (f i) then part.push i :: parts else part :: joinPart f i parts

/-- Splits a block into parts of rows with the same value, one row after the other. A block that
cannot be split stays, even if it is empty. -/
def splitBy {β : Type} [DecidableEq β] (f : Nat → β) (block : List Nat) : List (List Nat) :=
  if block.length ≤ 1 then [block]
  else (block.foldl (fun parts i => joinPart f i parts) []).map Array.toList

/-- Splits every block in place by the blocks that its rows move into. -/
def refine (p : Partition) (moves : Array (List (Option Nat))) : Partition :=
  let blocks := p.blocks moves.size
  let signatures := moves.map (signature (blocks.getD · []))
  p.flatMap (splitBy (signatures.getD · []))

theorem refine_eq_flatMap (p : Partition) {moves : Array (List (Option Nat))}
    (targets_lt : ∀ targets ∈ moves, ∀ j, some j ∈ targets → j < moves.size) :
    p.refine moves = p.flatMap (splitBy fun i => signature p.blockOf (moves.getD i [])) := by
  rw [refine]
  congr 2
  funext i
  rw [Array.getD_eq_getD_getElem?, Array.getD_eq_getD_getElem?, Array.getElem?_map]
  cases row : moves[i]? with
  | none => rfl
  | some targets =>
    refine List.map_congr_left fun target member => ?_
    cases target with
    | none => rfl
    | some j =>
      have lt := targets_lt targets (Array.mem_of_getElem? row) j member
      exact congrArg (fun block => some (representative block j)) (getD_blocks p lt)

/-- Refines a partition at most `rounds` times after the first. The last partition equals its
predecessor. -/
def refinements (moves : Array (List (Option Nat))) : (rounds : Nat) → Partition → List Partition
  | 0, p => [p, p.refine moves]
  | rounds + 1, p =>
    let finer := p.refine moves
    if finer = p then [p, finer] else p :: refinements moves rounds finer

end Partition

namespace Dfa

/-- The rejecting rows and the accepting rows. -/
def byAcceptance (d : Dfa) : Partition :=
  let positions (accepts : Bool) : List Nat :=
    (d.rows.zipIdx.filter (·.1.heading.accepts = accepts)).map (·.2)
  [positions false, positions true]

theorem byAcceptance_eq (d : Dfa) : d.byAcceptance =
    [(List.range d.size).filter (!d.isAccepting ·), (List.range d.size).filter d.isAccepting] := by
  have positions (accepts : Bool) :
      (d.rows.zipIdx.filter (·.1.heading.accepts = accepts)).map (·.2) =
        (List.range d.size).filter (d.isAccepting · = accepts) := by
    have range : List.range d.size = d.rows.zipIdx.map Prod.snd := by
      rw [List.zipIdx_map_snd, List.range_eq_range', size]
    rw [range, List.filter_map]
    refine congrArg _ (List.filter_congr fun (r, i) member => ?_)
    have row : d.rows[i]? = some r := List.mk_mem_zipIdx_iff_getElem?.mp member
    simp [isAccepting, row]
  simp only [byAcceptance, positions]
  simp

/-- The partitions of the rows by their behaviour on longer and longer words. -/
def partitions (d : Dfa) : Except TableError (List Partition) := do
  return Partition.refinements (← d.transitions).toArray d.size d.byAcceptance

/-! ### Merging -/

/-- Whether a block holds a starting row, where `row?` finds rows. -/
def anyStarts (row? : Nat → Option Row) (block : List Nat) : Bool :=
  block.any fun i => (row? i).any (·.heading.starts)

/-- The row of a representative: it starts if any row of its block does, and its targets are the
representatives of the targets before. -/
def mergedRow (row? : Nat → Option Row) (blockOf : Nat → List Nat) (r : Row) (i : Nat)
    (targets : List (Option Nat)) : Row where
  heading := { r.heading with starts := anyStarts row? (blockOf i) }
  targets := targets.map fun t => t.bind fun j =>
    (row? (Partition.representative (blockOf j) j)).map (·.heading.label)

/-- The rows of the representatives in table order. -/
def mergedRows (d : Dfa) (row? : Nat → Option Row) (blockOf : Nat → List Nat)
    (targets : List (List (Option Nat))) : List Row :=
  let representatives := (d.rows.zip targets).zipIdx.filter fun (_, i) =>
    Partition.representative (blockOf i) i = i
  representatives.map fun ((r, ts), i) => mergedRow row? blockOf r i ts

/-- Merges every block of a partition into the row of its representative. -/
def merge (d : Dfa) (p : Partition) (targets : List (List (Option Nat))) : Except TableError Dfa :=
  let rows := d.rows.toArray
  let blocks := p.blocks d.size
  ofRows d.alphabet (d.mergedRows (rows[·]?) (blocks.getD · []) targets)

theorem merge_eq_ofRows (d : Dfa) (p : Partition) (targets : List (List (Option Nat))) :
    d.merge p targets = ofRows d.alphabet
      (d.mergedRows (d.rows[·]?) ((p.blocks d.size).getD · []) targets) := by
  simp only [merge, List.getElem?_toArray]

def minimize (d : Dfa) : Except TableError Dfa := do
  d.merge ((← d.partitions).getLastD []) (← d.transitions)

/-! ### Renaming -/

def positionName (i : Nat) : String := "q" ++ i.repr

/-- The row at a position under its new name, with its targets renamed alike. -/
def renamedRow (r : Row) (i : Nat) (targets : List (Option Nat)) : Row :=
  ⟨r.heading.withLabel (positionName i), targets.map (Option.map positionName)⟩

/-- The table with its rows renamed by position, marks kept. -/
def relabel (d : Dfa) : Except TableError Dfa := do
  let targets ← d.transitions
  ofRows d.alphabet (((d.rows.zip targets).zipIdx).map fun ((r, ts), i) => renamedRow r i ts)

end Dfa

end FiniteAutomata
