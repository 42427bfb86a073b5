import FiniteAutomata.Dfa.Minimize
import FiniteAutomata.Proofs.Occurrence
import Mathlib.Data.List.Nodup
import Mathlib.Data.List.Pairwise
import Mathlib.Data.List.Perm.Basic

/-!
Refining a partition of the rows below `n` keeps it one. Blocks that a function is constant on are
not split by it, and any other block becomes more than one.
-/

namespace FiniteAutomata

namespace Partition

variable {β : Type} [DecidableEq β] {n : Nat} {p : Partition} {block part : List Nat} {f : Nat → β}

/-! ### Splitting one block -/

/-- The rows with a given value, in order. -/
def partOf (f : Nat → β) (rows : List Nat) (b : β) : Array Nat := (rows.filter (f · = b)).toArray

theorem partOf_concat (f : Nat → β) (rows : List Nat) (i : Nat) (b : β) :
    partOf f (rows ++ [i]) b = if f i = b then (partOf f rows b).push i else partOf f rows b := by
  rw [partOf, List.filter_append, List.filter_singleton]
  split
  · next same => simp [same, partOf]
  · next other => simp [other, partOf]

/-- The first row of a part has the value of the part. -/
theorem map_getElem?_partOf {rows : List Nat} {b : β} (used : b ∈ rows.map f) :
    (partOf f rows b)[0]?.map f = some b := by
  obtain ⟨i, hi, same⟩ := List.mem_map.mp used
  have member : i ∈ rows.filter (f · = b) := List.mem_filter.mpr ⟨hi, decide_eq_true same⟩
  obtain ⟨first, rest, split⟩ := List.exists_cons_of_ne_nil (List.ne_nil_of_mem member)
  have found : first ∈ rows.filter (f · = b) := split ▸ List.mem_cons_self
  rw [partOf, split]
  exact congrArg some (of_decide_eq_true (List.mem_filter.mp found).2)

/-- A row that joins the parts of the rows before it finds the part of its value, if there is one. -/
theorem joinPart_map {rows : List Nat} {i : Nat} {bs : List β} (distinct : bs.Nodup)
    (used : ∀ b ∈ bs, b ∈ rows.map f) (known : f i ∈ rows.map f → f i ∈ bs) :
    joinPart f i (bs.map (partOf f rows)) =
      (if f i ∈ bs then bs else bs ++ [f i]).map (partOf f (rows ++ [i])) := by
  induction bs with
  | nil =>
    have none : partOf f rows (f i) = #[] := by
      rw [partOf, List.filter_eq_nil_iff.mpr]
      intro j hj same
      cases known (of_decide_eq_true same ▸ List.mem_map_of_mem hj)
    rw [if_neg List.not_mem_nil, List.nil_append, List.map_singleton, partOf_concat, if_pos rfl, none]
    rfl
  | cons b bs ih =>
    obtain ⟨new, distinct⟩ := List.nodup_cons.mp distinct
    obtain ⟨first, rest⟩ := List.forall_mem_cons.mp used
    rw [List.map_cons, joinPart, map_getElem?_partOf first]
    by_cases same : b = f i
    · subst same
      have others : bs.map (partOf f rows) = bs.map (partOf f (rows ++ [i])) := by
        refine List.map_congr_left fun c hc => ?_
        rw [partOf_concat, if_neg]
        rintro rfl
        exact new hc
      rw [if_pos rfl, if_pos List.mem_cons_self, List.map_cons, partOf_concat, if_pos rfl, others]
    · have still : partOf f (rows ++ [i]) b = partOf f rows b := by
        rw [partOf_concat, if_neg (Ne.symm same)]
      have later := ih distinct rest fun member =>
        (List.mem_cons.mp (known member)).resolve_left (Ne.symm same)
      rw [if_neg (mt Option.some.inj same), later, ← still, ← List.map_cons]
      congr 1
      simp only [List.mem_cons, Ne.symm same, false_or]
      split <;> rfl

-- After every row, the parts are those of the rows so far, in the order in which their values came up.
theorem foldl_joinPart (f : Nat → β) (rows : List Nat) :
    rows.foldl (fun parts i => joinPart f i parts) [] =
      (rows.map f).eraseDups.map (partOf f rows) := by
  induction rows using List.reverseRecOn with
  | nil => rfl
  | append_singleton rows i ih =>
    rw [List.foldl_append, ih, List.foldl_cons, List.foldl_nil, List.map_append, List.map_singleton,
      eraseDups_concat, joinPart_map (nodup_eraseDups _) (fun b => List.mem_eraseDups.mp)
      List.mem_eraseDups.mpr]
    simp only [List.mem_eraseDups]

/-- Comparing rows with the first rows of the parts groups them by their values. -/
theorem splitBy_of_ne_nil (f : Nat → β) {block : List Nat} (some : block ≠ []) :
    splitBy f block = (block.map f).eraseDups.map fun b => block.filter (f · = b) := by
  rw [splitBy]
  split
  · next short =>
    match block with
    | [i] => simp [List.eraseDups_cons]
  · rw [foldl_joinPart, List.map_map]
    rfl

theorem mem_splitBy (some : block ≠ []) :
    part ∈ splitBy f block ↔ ∃ i ∈ block, part = block.filter (f · = f i) := by
  rw [splitBy_of_ne_nil f some]
  simp only [List.mem_map, List.mem_eraseDups]
  constructor
  · rintro ⟨_, ⟨i, hi, rfl⟩, rfl⟩
    exact ⟨i, hi, rfl⟩
  · rintro ⟨i, hi, rfl⟩
    exact ⟨f i, ⟨i, hi, rfl⟩, rfl⟩

theorem splitBy_nil : splitBy f [] = [[]] := rfl

theorem sublist_of_mem_splitBy (member : part ∈ splitBy f block) : part.Sublist block := by
  by_cases some : block = []
  · subst some
    rw [splitBy_nil, List.mem_singleton] at member
    exact member ▸ .slnil
  · obtain ⟨i, -, rfl⟩ := (mem_splitBy some).mp member
    exact List.filter_sublist

theorem flatten_splitBy_perm (distinct : block.Nodup) : (splitBy f block).flatten.Perm block := by
  by_cases some : block = []
  · subst some
    exact .refl _
  · have disjoint : (splitBy f block).flatten.Nodup := by
      rw [List.nodup_flatten]
      refine ⟨fun part member => distinct.sublist (sublist_of_mem_splitBy member), ?_⟩
      rw [splitBy_of_ne_nil f some, List.pairwise_map]
      apply (nodup_eraseDups (block.map f)).imp
      intro b c other i first second
      simp only [List.mem_filter, decide_eq_true_eq] at first second
      exact other (first.2.symm.trans second.2)
    rw [List.perm_ext_iff_of_nodup disjoint distinct]
    intro i
    rw [List.mem_flatten]
    constructor
    · rintro ⟨part, member, hi⟩
      exact (sublist_of_mem_splitBy member).subset hi
    · intro hi
      exact ⟨_, (mem_splitBy some).mpr ⟨i, hi, rfl⟩, List.mem_filter.mpr ⟨hi, by simp⟩⟩

theorem splitBy_of_constant (constant : ∀ i ∈ block, ∀ j ∈ block, f i = f j) :
    splitBy f block = [block] := by
  cases block with
  | nil => rfl
  | cons i rest =>
    have keys : ((i :: rest).map f).eraseDups = [f i] := by
      rw [List.map_cons, List.eraseDups_cons, List.filter_eq_nil_iff.mpr, List.eraseDups_nil]
      intro b hb
      obtain ⟨j, hj, rfl⟩ := List.mem_map.mp hb
      simp [constant j (List.mem_cons_of_mem i hj) i List.mem_cons_self]
    rw [splitBy_of_ne_nil f (List.cons_ne_nil i rest), keys, List.map_singleton,
      List.filter_eq_self.mpr]
    intro j hj
    simpa using constant j hj i List.mem_cons_self

/-! ### Counting blocks -/

/-- The number of blocks that are not empty. -/
def blockCount (p : Partition) : Nat := p.countP (· ≠ [])

theorem blockCount_splitBy (some : block ≠ []) :
    blockCount (splitBy f block) = (block.map f).eraseDups.length := by
  have all : ∀ part ∈ splitBy f block, decide (part ≠ []) = true := by
    intro part member
    obtain ⟨i, hi, rfl⟩ := (mem_splitBy some).mp member
    have kept : i ∈ block.filter (f · = f i) := List.mem_filter.mpr ⟨hi, by simp⟩
    simpa using List.ne_nil_of_mem kept
  rw [blockCount, List.countP_eq_length.mpr all, splitBy_of_ne_nil f some, List.length_map]

theorem blockCount_singleton (block : List Nat) : blockCount [block] ≤ 1 :=
  List.countP_le_length

theorem blockCount_singleton_le (f : Nat → β) (block : List Nat) :
    blockCount [block] ≤ blockCount (splitBy f block) := by
  by_cases some : block = []
  · subst some
    exact Nat.le_refl _
  · obtain ⟨i, hi⟩ := List.exists_mem_of_ne_nil _ some
    have key : f i ∈ (block.map f).eraseDups := List.mem_eraseDups.mpr (List.mem_map_of_mem hi)
    have keys := List.length_pos_of_mem key
    have one := blockCount_singleton block
    rw [blockCount_splitBy some]
    omega

theorem blockCount_singleton_lt {i j : Nat} (hi : i ∈ block) (hj : j ∈ block) (ne : f i ≠ f j) :
    blockCount [block] < blockCount (splitBy f block) := by
  have some := List.ne_nil_of_mem hi
  have first : f i ∈ (block.map f).eraseDups := List.mem_eraseDups.mpr (List.mem_map_of_mem hi)
  have second : f j ∈ (block.map f).eraseDups := List.mem_eraseDups.mpr (List.mem_map_of_mem hj)
  have one := blockCount_singleton block
  rw [blockCount_splitBy some]
  match keys : (block.map f).eraseDups with
  | [] =>
    rw [keys] at first
    cases first
  | [b] =>
    rw [keys, List.mem_singleton] at first second
    exact absurd (first.trans second.symm) ne
  | b :: c :: rest =>
    rw [List.length_cons, List.length_cons]
    omega

/-! ### Splitting all blocks -/

/-- The function has one value on every block. -/
def Constant (f : Nat → β) (p : Partition) : Prop := ∀ block ∈ p, ∀ i ∈ block, ∀ j ∈ block, f i = f j

theorem flatMap_splitBy_of_constant (constant : p.Constant f) : p.flatMap (splitBy f) = p := by
  have whole : p.flatMap (splitBy f) = p.flatMap ([·]) :=
    List.flatMap_congr fun block member => splitBy_of_constant (constant block member)
  rw [whole, List.flatMap_singleton']

theorem blockCount_append (p q : Partition) : blockCount (p ++ q) = blockCount p + blockCount q :=
  List.countP_append

theorem blockCount_cons (block : List Nat) (p : Partition) :
    blockCount (block :: p) = blockCount [block] + blockCount p :=
  blockCount_append [block] p

theorem blockCount_le_flatMap (f : Nat → β) (p : Partition) :
    blockCount p ≤ blockCount (p.flatMap (splitBy f)) := by
  induction p with
  | nil => exact Nat.le_refl _
  | cons block p ih =>
    rw [List.flatMap_cons, blockCount_cons, blockCount_append]
    exact Nat.add_le_add (blockCount_singleton_le f block) ih

theorem blockCount_lt (mixed : ¬ p.Constant f) : blockCount p < blockCount (p.flatMap (splitBy f)) := by
  unfold Constant at mixed
  push Not at mixed
  obtain ⟨block, member, i, hi, j, hj, ne⟩ := mixed
  obtain ⟨before, after, rfl⟩ := List.append_of_mem member
  rw [List.flatMap_append, List.flatMap_cons, blockCount_append, blockCount_cons,
    blockCount_append, blockCount_append]
  have more := blockCount_singleton_lt hi hj ne
  have first := blockCount_le_flatMap f before
  have rest := blockCount_le_flatMap f after
  omega

theorem blockCount_le_length_flatten (p : Partition) : blockCount p ≤ p.flatten.length := by
  induction p with
  | nil => exact Nat.le_refl _
  | cons block p ih =>
    rw [blockCount_cons, List.flatten_cons, List.length_append]
    refine Nat.add_le_add ?_ ih
    cases block with
    | nil => exact Nat.le_refl _
    | cons i rest => exact Nat.le_add_left 1 rest.length

theorem Constant.refine {γ : Type} [DecidableEq γ] {g : Nat → γ} (constant : p.Constant g)
    (f : Nat → β) : Constant g (p.flatMap (splitBy f)) := by
  intro part member i hi j hj
  obtain ⟨block, whole, member⟩ := List.mem_flatMap.mp member
  have sub := (sublist_of_mem_splitBy member).subset
  exact constant block whole i (sub hi) j (sub hj)

/-! ### Partitions of the rows below a number -/

/-- Every row below `n` is in exactly one block, and blocks list their rows in ascending order. -/
structure Of (n : Nat) (p : Partition) : Prop where
  perm : p.flatten.Perm (List.range n)
  ascending : ∀ block ∈ p, block.Pairwise (· < ·)

namespace Of

variable (of : Of n p)
include of

theorem nodup : p.flatten.Nodup := of.perm.symm.nodup List.nodup_range

theorem nodup_block (member : block ∈ p) : block.Nodup :=
  (List.nodup_flatten.mp of.nodup).1 block member

theorem lt {i : Nat} (member : block ∈ p) (hi : i ∈ block) : i < n :=
  List.mem_range.mp (of.perm.mem_iff.mp (List.mem_flatten.mpr ⟨block, member, hi⟩))

theorem exists_block {i : Nat} (lt : i < n) : ∃ block ∈ p, i ∈ block :=
  List.mem_flatten.mp (of.perm.mem_iff.mpr (List.mem_range.mpr lt))

theorem flatMap_splitBy (f : Nat → β) : Of n (p.flatMap (splitBy f)) where
  perm := by
    have split : (p.flatMap fun block => (splitBy f block).flatten).Perm (p.flatMap id) :=
      List.Perm.flatMap_left p fun block member => flatten_splitBy_perm (of.nodup_block member)
    rw [List.flatMap_id] at split
    rw [← List.flatMap_id, List.flatMap_assoc]
    simp only [List.flatMap_id]
    exact split.trans of.perm
  ascending part member := by
    obtain ⟨block, whole, member⟩ := List.mem_flatMap.mp member
    exact (of.ascending block whole).sublist (sublist_of_mem_splitBy member)

theorem blockCount_le : blockCount p ≤ n := by
  have rows : p.flatten.length = n := by rw [of.perm.length_eq, List.length_range]
  exact Nat.le_trans p.blockCount_le_length_flatten (Nat.le_of_eq rows)

theorem blockOf_eq {i : Nat} (member : block ∈ p) (hi : i ∈ block) : p.blockOf i = block := by
  cases found : p.find? (i ∈ ·) with
  | none =>
    have absent := List.find?_eq_none.mp found block member
    simp [hi] at absent
  | some other =>
    have hi' : i ∈ other := by simpa using List.find?_some found
    rw [blockOf, found, Option.getD_some]
    by_contra ne
    have symm : Std.Symm (List.Disjoint (α := Nat)) := ⟨fun _ _ => List.disjoint_symm⟩
    have disjoint := (List.nodup_flatten.mp of.nodup).2
    exact disjoint.forall (List.mem_of_find?_eq_some found) member ne hi' hi

theorem blockOf_mem {i : Nat} (lt : i < n) : p.blockOf i ∈ p ∧ i ∈ p.blockOf i := by
  obtain ⟨block, member, hi⟩ := of.exists_block lt
  rw [of.blockOf_eq member hi]
  exact ⟨member, hi⟩

theorem blockOf_of_le {i : Nat} (le : n ≤ i) : p.blockOf i = [] := by
  cases found : p.find? (i ∈ ·) with
  | none => rw [blockOf, found, Option.getD_none]
  | some block =>
    have hi : i ∈ block := by simpa using List.find?_some found
    exact absurd (of.lt (List.mem_of_find?_eq_some found) hi) (Nat.not_lt_of_le le)

theorem getD_blocks : ((p.blocks n).getD · []) = p.blockOf := by
  funext i
  by_cases lt : i < n
  · exact p.getD_blocks lt
  · have le := Nat.le_of_not_lt lt
    rw [of.blockOf_of_le le, Array.getD_eq_getD_getElem?, Array.getElem?_eq_none]
    · rfl
    · rwa [size_blocks]

end Of

/-! ### Representatives -/

/-- The first row of the block of a row. -/
def rep (p : Partition) (i : Nat) : Nat := representative (p.blockOf i) i

namespace Of

variable (of : Of n p) {i j : Nat}
include of

theorem rep_mem (lt : i < n) : p.rep i ∈ p.blockOf i := by
  have hi := (of.blockOf_mem lt).2
  rw [rep, representative]
  cases block : p.blockOf i with
  | nil =>
    rw [block] at hi
    cases hi
  | cons first rest => exact List.mem_cons_self

theorem rep_le (lt : i < n) : p.rep i ≤ i := by
  obtain ⟨member, hi⟩ := of.blockOf_mem lt
  have ascending := of.ascending _ member
  rw [rep, representative]
  cases block : p.blockOf i with
  | nil => exact Nat.le_refl i
  | cons first rest =>
    rw [block] at hi ascending
    rcases List.mem_cons.mp hi with rfl | later
    · exact Nat.le_refl _
    · exact Nat.le_of_lt ((List.pairwise_cons.mp ascending).1 i later)

theorem rep_lt (lt : i < n) : p.rep i < n := of.lt (of.blockOf_mem lt).1 (of.rep_mem lt)

theorem head?_eq_some_rep (member : block ∈ p) (hi : i ∈ block) : block.head? = some (p.rep i) := by
  rw [rep, representative, of.blockOf_eq member hi]
  cases block with
  | nil => cases hi
  | cons first rest => rfl

theorem blockOf_rep (lt : i < n) : p.blockOf (p.rep i) = p.blockOf i :=
  of.blockOf_eq (of.blockOf_mem lt).1 (of.rep_mem lt)

theorem rep_congr (hi : i < n) (same : p.blockOf i = p.blockOf j) : p.rep i = p.rep j := by
  have some := List.ne_nil_of_mem (of.blockOf_mem hi).2
  rw [rep, rep, ← same]
  cases block : p.blockOf i with
  | nil => exact absurd block some
  | cons first rest => rfl

theorem rep_rep (lt : i < n) : p.rep (p.rep i) = p.rep i :=
  of.rep_congr (of.rep_lt lt) (of.blockOf_rep lt)

omit [DecidableEq β] in
theorem constant_rep {f : Nat → β} (constant : p.Constant f) (lt : i < n) : f (p.rep i) = f i := by
  obtain ⟨member, hi⟩ := of.blockOf_mem lt
  exact constant _ member _ (of.rep_mem lt) i hi

end Of

/-! ### Refining a partition -/

variable {moves : Array (List (Option Nat))}

/-- Targets of moves are rows. -/
def Inside (moves : Array (List (Option Nat))) : Prop :=
  ∀ targets ∈ moves, ∀ j, some j ∈ targets → j < moves.size

/-- The representatives that the moves of a row lead to. -/
def target (p : Partition) (moves : Array (List (Option Nat))) (i : Nat) : List (Option Nat) :=
  (moves.getD i []).map (Option.map p.rep)

theorem refine_eq (inside : Inside moves) (p : Partition) :
    p.refine moves = p.flatMap (splitBy (p.target moves)) :=
  p.refine_eq_flatMap inside

theorem Of.refine (of : Of n p) (inside : Inside moves) : Of n (p.refine moves) := by
  rw [refine_eq inside]
  exact of.flatMap_splitBy _

theorem constant_target_iff (inside : Inside moves) (p : Partition) :
    p.Constant (p.target moves) ↔ p.refine moves = p := by
  rw [refine_eq inside]
  constructor
  · exact flatMap_splitBy_of_constant
  · intro same
    by_contra mixed
    have more := blockCount_lt mixed
    rw [same] at more
    exact Nat.lt_irrefl _ more

theorem blockCount_lt_refine (inside : Inside moves) (changed : p.refine moves ≠ p) :
    blockCount p < blockCount (p.refine moves) := by
  rw [refine_eq inside]
  exact blockCount_lt (mt (constant_target_iff inside p).mp changed)

end Partition

namespace Dfa

variable {d : Dfa} {p : Partition} {i j : Nat}

theorem of_byAcceptance (d : Dfa) : Partition.Of d.size d.byAcceptance := by
  rw [byAcceptance_eq]
  constructor
  · have parts := List.filter_append_perm (fun i => !d.isAccepting i) (List.range d.size)
    simpa using parts
  · intro block member
    rcases List.mem_pair.mp member with rfl | rfl
    · exact List.pairwise_lt_range.filter _
    · exact List.pairwise_lt_range.filter _

theorem constant_byAcceptance (d : Dfa) : d.byAcceptance.Constant d.isAccepting := by
  rw [byAcceptance_eq]
  intro block member i hi j hj
  rcases List.mem_pair.mp member with rfl | rfl
  · have hi := (List.mem_filter.mp hi).2
    have hj := (List.mem_filter.mp hj).2
    rw [Bool.not_eq_true'] at hi hj
    rw [hi, hj]
  · rw [(List.mem_filter.mp hi).2, (List.mem_filter.mp hj).2]

end Dfa

end FiniteAutomata
