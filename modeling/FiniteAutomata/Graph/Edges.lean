/-!
The outgoing edges of a state, grouped by their symbols. A group is begun when its symbol is first used and
keeps its targets in the order in which they are added, repetitions included. `targets_add` and
`symbols_add` say what an edge adds.
-/

namespace FiniteAutomata

/-! ### Symbols -/

/-- The symbol of an edge: a character, or the empty word, which is written `ε` and comes before
every character. -/
inductive Symbol where
  | epsilon
  | char (c : Char)
deriving DecidableEq

namespace Symbol

def char? : Symbol → Option Char
  | epsilon => none
  | char c => some c

def text : Symbol → String
  | epsilon => "ε"
  | char c => c.toString

instance : Ord Symbol where
  compare
    | epsilon, epsilon => .eq
    | epsilon, char _ => .lt
    | char _, epsilon => .gt
    | char c, char d => compare c d

/-- The heading of the column of states reached without reading a character. -/
def epsilonColumn : String := "ε*"

end Symbol

/-! ### Groups -/

/-- The targets of edges in groups, one for each symbol in use. -/
structure Edges where
  groups : List (Symbol × List Nat)
  nodup : (groups.map (·.1)).Nodup
  nonempty : ∀ group ∈ groups, group.2 ≠ []

namespace Edges

/-- The targets in the group of a symbol, none if there is no group. -/
def find (a : Symbol) : List (Symbol × List Nat) → List Nat
  | [] => []
  | (b, targets) :: groups => if b = a then targets else find a groups

/-- Puts a target last in the group of its symbol, which comes last if it is new. -/
def place (a : Symbol) (j : Nat) : List (Symbol × List Nat) → List (Symbol × List Nat)
  | [] => [(a, [j])]
  | (b, targets) :: groups =>
    if b = a then (b, targets ++ [j]) :: groups else (b, targets) :: place a j groups

variable {groups : List (Symbol × List Nat)}

theorem map_fst_place (a : Symbol) (j : Nat) (groups : List (Symbol × List Nat)) :
    (place a j groups).map (·.1) =
      if a ∈ groups.map (·.1) then groups.map (·.1) else groups.map (·.1) ++ [a] := by
  induction groups with
  | nil => rfl
  | cons group groups ih =>
    rw [place]
    split
    · next same => simp [same]
    · next other =>
      simp only [List.map_cons, List.mem_cons, ih, Ne.symm other, false_or]
      split <;> rfl

theorem nodup_place (a : Symbol) (j : Nat) (nodup : (groups.map (·.1)).Nodup) :
    ((place a j groups).map (·.1)).Nodup := by
  rw [map_fst_place]
  split
  · exact nodup
  · next new =>
    refine List.nodup_append.mpr ⟨nodup, by simp, fun b old c last same => new ?_⟩
    rw [← List.mem_singleton.mp last, ← same]
    exact old

theorem nonempty_place (a : Symbol) (j : Nat) (nonempty : ∀ group ∈ groups, group.2 ≠ []) :
    ∀ group ∈ place a j groups, group.2 ≠ [] := by
  induction groups with
  | nil => simp [place]
  | cons group groups ih =>
    obtain ⟨first, rest⟩ := List.forall_mem_cons.mp nonempty
    rw [place]
    split
    · exact List.forall_mem_cons.mpr ⟨by simp, rest⟩
    · exact List.forall_mem_cons.mpr ⟨first, ih rest⟩

theorem find_place (a b : Symbol) (j : Nat) (groups : List (Symbol × List Nat)) :
    find b (place a j groups) = if b = a then find b groups ++ [j] else find b groups := by
  induction groups with
  | nil =>
    simp only [place, find, List.nil_append, @eq_comm _ a b]
  | cons group groups ih =>
    rw [place]
    split
    · next same =>
      subst same
      grind [find]
    · grind [find]

theorem find_ne_nil_iff (nonempty : ∀ group ∈ groups, group.2 ≠ []) {a : Symbol} :
    find a groups ≠ [] ↔ a ∈ groups.map (·.1) := by
  induction groups with
  | nil => simp [find]
  | cons group groups ih =>
    obtain ⟨first, rest⟩ := List.forall_mem_cons.mp nonempty
    rw [find, List.map_cons, List.mem_cons]
    split
    · next same => simp [same, first]
    · next other => simp [Ne.symm other, ih rest]

theorem find_of_mem (nodup : (groups.map (·.1)).Nodup) {a : Symbol} {targets : List Nat}
    (member : (a, targets) ∈ groups) : find a groups = targets := by
  induction groups with
  | nil => cases member
  | cons group groups ih =>
    rw [List.map_cons, List.nodup_cons] at nodup
    rw [find]
    rcases List.mem_cons.mp member with rfl | member
    · exact if_pos rfl
    · have other : group.1 ≠ a := fun same =>
        nodup.1 (same ▸ List.mem_map_of_mem (f := Prod.fst) member)
      rw [if_neg other, ih nodup.2 member]

/-! ### The edges of a state -/

def empty : Edges := ⟨[], List.nodup_nil, fun _ member => nomatch member⟩

def targets (e : Edges) (a : Symbol) : List Nat := find a e.groups

/-- The symbols with an edge, in order of first use. -/
def symbols (e : Edges) : List Symbol := e.groups.map (·.1)

/-- The targets of all edges, group by group. -/
def successors (e : Edges) : List Nat := e.groups.flatMap (·.2)

def add (e : Edges) (a : Symbol) (j : Nat) : Edges where
  groups := place a j e.groups
  nodup := nodup_place a j e.nodup
  nonempty := nonempty_place a j e.nonempty

variable {e : Edges} {a : Symbol} {j : Nat}

/-- A new edge is the last one on its symbol. -/
theorem targets_add (e : Edges) (a : Symbol) (j : Nat) (b : Symbol) :
    (e.add a j).targets b = if b = a then e.targets b ++ [j] else e.targets b :=
  find_place a b j e.groups

theorem symbols_add (e : Edges) (a : Symbol) (j : Nat) :
    (e.add a j).symbols = if a ∈ e.symbols then e.symbols else e.symbols ++ [a] :=
  map_fst_place a j e.groups

theorem mem_symbols : a ∈ e.symbols ↔ e.targets a ≠ [] :=
  (find_ne_nil_iff e.nonempty).symm

/-- Every symbol in use stands once, beside its targets. -/
theorem groups_eq (e : Edges) : e.groups = e.symbols.map fun a => (a, e.targets a) := by
  have same : ∀ group ∈ e.groups, (group.1, e.targets group.1) = id group :=
    fun group member => by rw [targets, find_of_mem e.nodup member, id]
  rw [symbols, List.map_map]
  exact ((List.map_congr_left same).trans (List.map_id _)).symm

theorem mem_successors : j ∈ e.successors ↔ ∃ a, j ∈ e.targets a := by
  rw [successors, groups_eq, List.flatMap_map, List.mem_flatMap]
  constructor
  · rintro ⟨a, -, member⟩
    exact ⟨a, member⟩
  · rintro ⟨a, member⟩
    exact ⟨a, mem_symbols.mpr (List.ne_nil_of_mem member), member⟩

theorem mem_successors_add {k : Nat} :
    k ∈ (e.add a j).successors ↔ k ∈ e.successors ∨ k = j := by
  simp only [mem_successors, targets_add]
  constructor
  · rintro ⟨b, member⟩
    split at member
    · exact (List.mem_append.mp member).imp (⟨b, ·⟩) List.mem_singleton.mp
    · exact .inl ⟨b, member⟩
  · rintro (⟨b, member⟩ | rfl)
    · refine ⟨b, ?_⟩
      split
      · exact List.mem_append_left _ member
      · exact member
    · exact ⟨a, by simp⟩

end Edges

end FiniteAutomata
