import FiniteAutomata.Dfa.Powerset
import FiniteAutomata.Proofs.Dfa.Moves
import FiniteAutomata.Proofs.Graph.Reachability
import FiniteAutomata.Proofs.Search.BreadthFirst
import FiniteAutomata.Proofs.SortedSet
import Mathlib.Data.Finset.Powerset

/-!
The powerset automaton follows the sets of states that words lead to: a word leads from its first
row to the row of the set of the ends of all runs over it, and to no row if there is no run.
-/

namespace FiniteAutomata

namespace Graph

variable {g : Graph} {s t : StateSet} {c : Char}

theorem move_eq_none_iff : g.move s c = none ↔ g.read s.elements c = [] := by
  rw [move]
  split
  · next empty => simp [empty]
  · next other => simpa using other

theorem move_eq_some_iff :
    g.move s c = some t ↔ g.read s.elements c ≠ [] ∧ t = .ofList (g.read s.elements c) := by
  rw [move]
  split
  · next empty => simp [empty]
  · next other =>
    rw [Option.some.injEq, eq_comm]
    exact ⟨fun same => ⟨other, same⟩, And.right⟩

theorem mem_move (moved : g.move s c = some t) {k : Nat} :
    k ∈ t.elements ↔ k ∈ g.read s.elements c := by
  rw [(move_eq_some_iff.mp moved).2, SortedSet.mem_ofList]

end Graph

namespace Nfa

variable {a : Nfa} {s t : StateSet} {c : Char}

/-- What holds of the sets of states that words lead to. -/
structure Attained (a : Nfa) (s : StateSet) : Prop where
  increasing : SortedSet.Increasing s.elements
  nonempty : s.elements ≠ []
  closed : a.graph.SilentlyClosed s.elements
  reached : ∀ i ∈ s.elements, a.graph.Reaches a.input i

theorem mem_startSet {i : Nat} : i ∈ a.startSet.elements ↔ a.graph.Run a.input [] i := by
  rw [startSet, SortedSet.mem_ofList, Graph.mem_silentlyReachable]
  simp [a.input_lt]

theorem attained_startSet (a : Nfa) : a.Attained a.startSet where
  increasing := SortedSet.increasing_ofList _
  nonempty := List.ne_nil_of_mem (mem_startSet.mpr (.stop a.input))
  closed _ hi _ silent := mem_startSet.mpr ((mem_startSet.mp hi).append silent)
  reached _ hi := (mem_startSet.mp hi).reaches

theorem Attained.move (attained : a.Attained s) (moved : a.graph.move s c = some t) :
    a.Attained t := by
  have members := @Graph.mem_move _ _ _ _ moved
  obtain ⟨some, rfl⟩ := Graph.move_eq_some_iff.mp moved
  refine ⟨SortedSet.increasing_ofList _, ?_, ?_, ?_⟩
  · obtain ⟨i, hi⟩ := List.exists_mem_of_ne_nil _ some
    exact List.ne_nil_of_mem (members.mpr hi)
  · intro i hi j silent
    exact members.mpr (Graph.silentlyClosed_read _ c i (members.mp hi) j silent)
  · intro k hk
    obtain ⟨i, hi, j, edge, silent⟩ := Graph.mem_read.mp (members.mp hk)
    exact ((attained.reached i hi).tail edge).trans silent.reaches

theorem Attained.of_mem_moves {alphabet : List Char} (attained : a.Attained s)
    (member : some t ∈ a.moves alphabet s) : a.Attained t := by
  obtain ⟨c, -, moved⟩ := List.mem_map.mp member
  exact attained.move moved

theorem Attained.eq_of_mem_iff (hs : a.Attained s) (ht : a.Attained t)
    (same : ∀ i, i ∈ s.elements ↔ i ∈ t.elements) : s = t :=
  congrArg SortedSet.mk (hs.increasing.eq_of_mem_iff ht.increasing same)

/-- Sets are equal if their states have the same keys, where reachable states have different keys. -/
theorem Attained.eq_of_keys {β : Type} {key : Nat → β} (hs : a.Attained s) (ht : a.Attained t)
    (inj : ∀ i j, a.graph.Reaches a.input i → a.graph.Reaches a.input j → key i = key j → i = j)
    (same : ∀ k, (∃ i ∈ s.elements, key i = k) ↔ ∃ i ∈ t.elements, key i = k) : s = t := by
  apply hs.eq_of_mem_iff ht
  intro i
  constructor
  · intro hi
    obtain ⟨j, hj, key⟩ := (same (key i)).mp ⟨i, hi, rfl⟩
    exact inj j i (ht.reached j hj) (hs.reached i hi) key ▸ hj
  · intro hi
    obtain ⟨j, hj, key⟩ := (same (key i)).mpr ⟨i, hi, rfl⟩
    exact inj j i (hs.reached j hj) (ht.reached i hi) key ▸ hj

theorem atMost_attained (a : Nfa) : Search.AtMost a.Attained (Nat.pow 2 a.graph.size) := by
  intro sets distinct attained
  let members (s : StateSet) : Finset Nat := s.elements.toFinset
  have inj : ∀ s ∈ sets, ∀ t ∈ sets, members s = members t → s = t := by
    intro s hs t ht same
    apply (attained s hs).eq_of_mem_iff (attained t ht)
    intro i
    rw [← List.mem_toFinset, ← List.mem_toFinset]
    exact Finset.ext_iff.mp same i
  have below : (sets.map members).toFinset ⊆ (Finset.range a.graph.size).powerset := by
    intro m hm
    obtain ⟨s, hs, rfl⟩ := List.mem_map.mp (List.mem_toFinset.mp hm)
    rw [Finset.mem_powerset]
    intro i hi
    exact Finset.mem_range.mpr
      (((attained s hs).reached i (List.mem_toFinset.mp hi)).lt_size a.input_lt)
  calc sets.length
      = (sets.map members).toFinset.card := by
        rw [List.toFinset_card_of_nodup (distinct.map_on inj), List.length_map]
    _ ≤ ((Finset.range a.graph.size).powerset).card := Finset.card_le_card below
    _ = 2 ^ a.graph.size := by rw [Finset.card_powerset, Finset.card_range]

variable {alphabet : List Char}

theorem exhausts_reachableSets (a : Nfa) (alphabet : List Char) :
    Search.Exhausts a.Attained (a.moves alphabet) [] [a.startSet] (a.reachableSets alphabet) :=
  Search.exhausts_breadthFirst (fun _ attained _ member => attained.of_mem_moves member)
    a.attained_startSet a.atMost_attained

/-- The sets that words lead to in the order of their rows. -/
def sets (a : Nfa) (alphabet : List Char) : List StateSet :=
  (a.reachableSets alphabet).map Prod.fst

theorem sets_zero (a : Nfa) (alphabet : List Char) :
    (a.sets alphabet)[0]? = some a.startSet := by
  obtain ⟨rest, found⟩ := (a.exhausts_reachableSets alphabet).queued
  rw [sets, ← found]
  rfl

theorem nodup_sets (a : Nfa) (alphabet : List Char) : (a.sets alphabet).Nodup :=
  (a.exhausts_reachableSets alphabet).distinct

theorem attained_of_mem_sets (member : s ∈ a.sets alphabet) : a.Attained s := by
  obtain ⟨e, he, rfl⟩ := List.mem_map.mp member
  exact (a.exhausts_reachableSets alphabet).valid e he

theorem mem_sets_of_move (member : s ∈ a.sets alphabet) (letter : c ∈ alphabet)
    (moved : a.graph.move s c = some t) : t ∈ a.sets alphabet := by
  obtain ⟨e, he, rfl⟩ := List.mem_map.mp member
  have exhausts := a.exhausts_reachableSets alphabet
  apply exhausts.closed e he t
  rw [exhausts.expanded e he]
  exact List.mem_map.mpr ⟨c, letter, moved⟩

/-- The alphabet has all characters that can be read. -/
def Covers (a : Nfa) (alphabet : List Char) : Prop :=
  ∀ i c j, a.graph.Reaches a.input i → j ∈ a.graph.targets i (.char c) → c ∈ alphabet

theorem Covers.of_move (covers : a.Covers alphabet) (attained : a.Attained s)
    (moved : a.graph.move s c = some t) : c ∈ alphabet := by
  obtain ⟨some, -⟩ := Graph.move_eq_some_iff.mp moved
  obtain ⟨k, hk⟩ := List.exists_mem_of_ne_nil _ some
  obtain ⟨i, hi, j, edge, -⟩ := Graph.mem_read.mp hk
  exact covers i c j (attained.reached i hi) edge

theorem covers_alphabet (a : Nfa) : a.Covers a.alphabet :=
  fun i _ j reach edge => mem_alphabet.mpr ⟨i, reach, j, edge⟩

/-! ### Rows -/

def rowAt (a : Nfa) (alphabet : List Char) (accept : Label) (i : Nat) (s : StateSet) : Dfa.Row :=
  let r := a.graph.setRow accept s (a.moves alphabet s)
  { r with heading.starts := decide (i = 0) }

theorem getElem?_startFirst (rows : List Dfa.Row) (plain : ∀ r ∈ rows, r.heading.starts = false)
    (i : Nat) : (Dfa.startFirst rows)[i]? =
      rows[i]?.map fun r => { r with heading.starts := decide (i = 0) } := by
  cases rows with
  | nil => rfl
  | cons r rows =>
    cases i with
    | zero => rfl
    | succ i =>
      show rows[i]? = rows[i]?.map _
      cases row : rows[i]? with
      | none => rfl
      | some r =>
        have := plain r (List.mem_cons_of_mem _ (List.mem_of_getElem? row))
        simp [← this]

theorem getElem?_setRows (a : Nfa) (alphabet : List Char) (accept : Label) (i : Nat) :
    (a.setRows alphabet accept)[i]? =
      (a.sets alphabet)[i]?.map (a.rowAt alphabet accept i) := by
  rw [setRows, getElem?_startFirst, List.getElem?_map, sets, List.getElem?_map, Option.map_map,
    Option.map_map]
  · cases entry : (a.reachableSets alphabet)[i]? with
    | none => rfl
    | some e =>
      have := (a.exhausts_reachableSets alphabet).expanded e (List.mem_of_getElem? entry)
      simp only [Option.map_some, Function.comp_apply, this]
      rfl
  · intro r hr
    obtain ⟨e, -, rfl⟩ := List.mem_map.mp hr
    rfl

/-! ### Following words -/

section Made

variable {accept : Label} {d : Dfa} {i : Nat}

theorem getElem?_powerset (made : a.powerset alphabet accept = .ok d) (i : Nat) :
    d.rows[i]? = (a.sets alphabet)[i]?.map (a.rowAt alphabet accept i) := by
  rw [powerset_eq_ofRows, Dfa.ofRows_eq_ok_iff] at made
  rw [made.2, getElem?_setRows]

theorem alphabet_powerset (made : a.powerset alphabet accept = .ok d) : d.alphabet = alphabet := by
  rw [powerset_eq_ofRows, Dfa.ofRows_eq_ok_iff] at made
  exact made.1

theorem startsAt_powerset (made : a.powerset alphabet accept = .ok d) : d.StartsAt 0 := by
  have first := getElem?_powerset made 0
  rw [sets_zero, Option.map_some] at first
  refine ⟨(List.getElem?_eq_some_iff.mp first).1, fun i r row => ?_⟩
  rw [getElem?_powerset made, Option.map_eq_some_iff] at row
  obtain ⟨s, -, rfl⟩ := row
  exact decide_eq_true_iff

theorem index?_powerset (made : a.powerset alphabet accept = .ok d)
    (set : (a.sets alphabet)[i]? = some s) : d.index? (a.graph.setText s) = some i := by
  have row := getElem?_powerset made i
  rw [set] at row
  exact Dfa.index?_label row

theorem closed_powerset (made : a.powerset alphabet accept = .ok d) : d.Closed := by
  intro r member target named
  obtain ⟨i, row⟩ := List.mem_iff_getElem?.mp member
  rw [getElem?_powerset made, Option.map_eq_some_iff] at row
  obtain ⟨s, set, rfl⟩ := row
  obtain ⟨move, moved, text⟩ := List.mem_map.mp named
  obtain ⟨c, letter, rfl⟩ := List.mem_map.mp moved
  obtain ⟨t, moved, rfl⟩ := Option.map_eq_some_iff.mp text
  have member := mem_sets_of_move (List.mem_of_getElem? set) letter moved
  obtain ⟨m, set'⟩ := List.mem_iff_getElem?.mp member
  exact ⟨m, index?_powerset made set'⟩

/-- One more character leads to the row of the set that it leads to. -/
theorem step?_powerset (made : a.powerset alphabet accept = .ok d)
    (covers : a.Covers alphabet)
    (set : (a.sets alphabet)[i]? = some s) (c : Char) :
    d.step? i c = (a.graph.move s c).bind fun t => d.index? (a.graph.setText t) := by
  have row := getElem?_powerset made i
  rw [set] at row
  by_cases letter : c ∈ alphabet
  · have targets : (a.rowAt alphabet accept i s).targets =
        d.alphabet.map fun c => (a.graph.move s c).map a.graph.setText := by
      rw [alphabet_powerset made]
      simp [rowAt, Graph.setRow, moves]
    have target := Dfa.target?_of_map row targets (alphabet_powerset made ▸ letter)
    rw [Dfa.step?, target]
    cases a.graph.move s c <;> rfl
  · have attained := a.attained_of_mem_sets (List.mem_of_getElem? set)
    have still : a.graph.move s c = none :=
      Option.eq_none_iff_forall_not_mem.mpr fun t moved => letter (covers.of_move attained moved)
    rw [Dfa.step?, Dfa.target?_of_not_mem (alphabet_powerset made ▸ letter), still]
    rfl

/-- The ends of runs over a word from the states of `s`, as a set of the powerset automaton. -/
def Ends (a : Nfa) (alphabet : List Char) (s : StateSet) (w : List Char) : Option Nat → Prop
  | none => ∀ i ∈ s.elements, ∀ k, ¬ a.graph.Run i w k
  | some m => ∃ t, (a.sets alphabet)[m]? = some t ∧
      ∀ k, k ∈ t.elements ↔ ∃ i ∈ s.elements, a.graph.Run i w k

theorem ends_follow (made : a.powerset alphabet accept = .ok d)
    (covers : a.Covers alphabet)
    (set : (a.sets alphabet)[i]? = some s) (w : List Char) :
    a.Ends alphabet s w (d.follow i w) := by
  induction w generalizing i s with
  | nil =>
    have attained := a.attained_of_mem_sets (List.mem_of_getElem? set)
    exact ⟨s, set, fun k => (Graph.exists_run_nil_iff attained.closed).symm⟩
  | cons c w ih =>
    have attained := a.attained_of_mem_sets (List.mem_of_getElem? set)
    have first := fun k => @Graph.exists_run_cons_iff _ k _ attained.closed c w
    rw [Dfa.follow_cons, step?_powerset made covers set]
    cases moved : a.graph.move s c with
    | none =>
      intro i hi k run
      have empty := Graph.move_eq_none_iff.mp moved
      obtain ⟨j, hj, -⟩ := (first k).mp ⟨i, hi, run⟩
      rw [empty] at hj
      cases hj
    | some t =>
      have letter := covers.of_move attained moved
      obtain ⟨m, lt, spot⟩ := List.mem_iff_getElem.mp
        (mem_sets_of_move (List.mem_of_getElem? set) letter moved)
      have set' : (a.sets alphabet)[m]? = some t := by
        rw [List.getElem?_eq_getElem lt, spot]
      have rest := ih set'
      show a.Ends alphabet s (c :: w) ((d.index? (a.graph.setText t)).bind (d.follow · w))
      rw [index?_powerset made set', Option.bind_some]
      have starts (k : Nat) : (∃ i ∈ t.elements, a.graph.Run i w k) ↔
          ∃ i ∈ s.elements, a.graph.Run i (c :: w) k := by
        rw [first]
        simp only [Graph.mem_move moved]
      cases followed : d.follow m w with
      | none =>
        rw [followed] at rest
        intro i hi k run
        obtain ⟨j, hj, run⟩ := (starts k).mpr ⟨i, hi, run⟩
        exact rest j hj k run
      | some n =>
        rw [followed] at rest
        obtain ⟨u, set'', members⟩ := rest
        exact ⟨u, set'', fun k => (members k).trans (starts k)⟩

/-- The ends of runs over a word from the input, as a set of the powerset automaton. -/
def EndsAt (a : Nfa) (alphabet : List Char) (w : List Char) : Option Nat → Prop
  | none => ∀ k, ¬ a.graph.Run a.input w k
  | some m => ∃ t, (a.sets alphabet)[m]? = some t ∧ ∀ k, k ∈ t.elements ↔ a.graph.Run a.input w k

theorem endsAt_follow (made : a.powerset alphabet accept = .ok d) (covers : a.Covers alphabet)
    (w : List Char) : a.EndsAt alphabet w (d.follow 0 w) := by
  have ends := ends_follow made covers (a.sets_zero alphabet) w
  have starts (k : Nat) : (∃ i ∈ a.startSet.elements, a.graph.Run i w k) ↔
      a.graph.Run a.input w k := by
    constructor
    · rintro ⟨i, hi, run⟩
      exact (mem_startSet.mp hi).append run
    · intro run
      exact ⟨a.input, mem_startSet.mpr (.stop _), run⟩
  cases followed : d.follow 0 w with
  | none =>
    rw [followed] at ends
    intro k run
    obtain ⟨i, hi, run⟩ := (starts k).mpr run
    exact ends i hi k run
  | some m =>
    rw [followed] at ends
    obtain ⟨t, set, members⟩ := ends
    exact ⟨t, set, fun k => (members k).trans (starts k)⟩

theorem isAccepting_powerset (made : a.powerset alphabet accept = .ok d)
    (set : (a.sets alphabet)[i]? = some s) : d.isAccepting i = true ↔
      ∃ k ∈ s.elements, (a.graph.state k).label = some accept := by
  have row := getElem?_powerset made i
  rw [set, Option.map_some] at row
  rw [Dfa.isAccepting_of_row row]
  show s.elements.any _ = true ↔ _
  rw [List.any_eq_true]
  simp only [decide_eq_true_eq]

/-- A word is accepted if a run over it ends in a state with the label `accept`. -/
theorem accepts_powerset_iff (made : a.powerset alphabet accept = .ok d)
    (covers : a.Covers alphabet) (w : List Char) : d.accepts w = true ↔
      ∃ k, a.graph.Run a.input w k ∧ (a.graph.state k).label = some accept := by
  have ends := endsAt_follow made covers w
  rw [(startsAt_powerset made).accepts_eq, Dfa.acceptsFrom]
  cases followed : d.follow 0 w with
  | none =>
    rw [followed] at ends
    constructor
    · intro accepted
      cases accepted
    · rintro ⟨k, run, -⟩
      exact absurd run (ends k)
  | some m =>
    rw [followed] at ends
    obtain ⟨t, set, members⟩ := ends
    rw [Option.any_some, isAccepting_powerset made set]
    simp only [members]

end Made

end Nfa

end FiniteAutomata
