import FiniteAutomata.Graph.Run
import FiniteAutomata.Nfa.Basic
import FiniteAutomata.Occurrence
import FiniteAutomata.Proofs.Graph.Changes

/-!
The states that a search from a state meets are those to which runs lead. The alphabet of an
automaton is made of the characters on the edges of these states.
-/

namespace FiniteAutomata

namespace Graph

variable {g : Graph} {i j k : Nat}

theorem mem_symbols {a : Symbol} : a ∈ (g.state i).symbols ↔ ∃ j, j ∈ g.targets i a :=
  Edges.mem_symbols.trans ⟨List.exists_mem_of_ne_nil _, fun ⟨_, edge⟩ => List.ne_nil_of_mem edge⟩

theorem mem_successors : j ∈ g.successors i ↔ ∃ a, j ∈ g.targets i a :=
  Edges.mem_successors

theorem mem_reachable : j ∈ g.reachable i ↔ i < g.size ∧ g.Reaches i j := by
  simp only [reachable_eq, Search.mem_preorder_iff, List.mem_singleton, exists_eq_left]
  constructor
  · intro way
    induction way with
    | here inside => exact ⟨Search.Unseen.mem_below.mp inside, .refl g _⟩
    | step inside edge _ ih =>
      obtain ⟨a, edge⟩ := mem_successors.mp edge
      exact ⟨Search.Unseen.mem_below.mp inside, (Reaches.edge edge).trans ih.2⟩
  · rintro ⟨inside, w, run⟩
    induction run with
    | stop => exact .here (Search.Unseen.mem_below.mpr inside)
    | silent edge _ ih =>
      have lt := lt_size_of_mem_targets edge
      exact .step (Search.Unseen.mem_below.mpr inside) (mem_successors.mpr ⟨_, edge⟩) (ih lt)
    | read edge _ ih =>
      have lt := lt_size_of_mem_targets edge
      exact .step (Search.Unseen.mem_below.mpr inside) (mem_successors.mpr ⟨_, edge⟩) (ih lt)

theorem Run.reaches {w : List Char} (run : g.Run i w j) : g.Reaches i j := ⟨w, run⟩

/-! ### Reading from a set of states -/

theorem mem_read {s : List Nat} {c : Char} : k ∈ g.read s c ↔
    ∃ i ∈ s, ∃ j ∈ g.targets i (.char c), g.Run j [] k := by
  simp only [read, mem_silentlyReachable, List.mem_flatMap]
  constructor
  · rintro ⟨j, ⟨i, hi, edge⟩, -, run⟩
    exact ⟨i, hi, j, edge, run⟩
  · rintro ⟨i, hi, j, edge, run⟩
    exact ⟨j, ⟨i, hi, edge⟩, lt_size_of_mem_targets edge, run⟩

/-- The set holds every state to which a silent run leads from one of its states. -/
def SilentlyClosed (g : Graph) (s : List Nat) : Prop := ∀ i ∈ s, ∀ j, g.Run i [] j → j ∈ s

theorem silentlyClosed_read (s : List Nat) (c : Char) : g.SilentlyClosed (g.read s c) := by
  intro k hk l silent
  obtain ⟨i, hi, j, edge, run⟩ := mem_read.mp hk
  exact mem_read.mpr ⟨i, hi, j, edge, run.append silent⟩

/-- Runs from a closed set over a word are runs over its rest from what its first character leads
to. -/
theorem exists_run_cons_iff {s : List Nat} (closed : g.SilentlyClosed s) {c : Char}
    {w : List Char} :
    (∃ i ∈ s, g.Run i (c :: w) k) ↔ ∃ i ∈ g.read s c, g.Run i w k := by
  constructor
  · rintro ⟨i, hi, run⟩
    obtain ⟨j, silent, j', edge, rest⟩ := run_cons_iff.mp run
    exact ⟨j', mem_read.mpr ⟨j, closed i hi j silent, j', edge, .stop j'⟩, rest⟩
  · rintro ⟨l, hl, rest⟩
    obtain ⟨i, hi, j, edge, silent⟩ := mem_read.mp hl
    exact ⟨i, hi, .read edge (silent.append rest)⟩

theorem exists_run_nil_iff {s : List Nat} (closed : g.SilentlyClosed s) :
    (∃ i ∈ s, g.Run i [] k) ↔ k ∈ s := by
  constructor
  · rintro ⟨i, hi, run⟩
    exact closed i hi k run
  · intro hk
    exact ⟨k, hk, .stop k⟩

/-- Acceptance is a run from the input to an accepting state. -/
theorem accepts_iff {w : List Char} : g.accepts i w = true ↔
    i < g.size ∧ ∃ j, g.Run i w j ∧ (g.state j).accepting := by
  rw [accepts, List.any_eq_true]
  simp only [mem_after]
  constructor
  · rintro ⟨j, ⟨lt, run⟩, flag⟩
    exact ⟨lt, j, run, flag⟩
  · rintro ⟨lt, j, run, flag⟩
    exact ⟨j, ⟨lt, run⟩, flag⟩

end Graph

namespace Nfa

variable {a : Nfa} {i : Nat}

theorem mem_states : i ∈ a.states ↔ a.graph.Reaches a.input i := by
  rw [states, Graph.mem_reachable]
  exact and_iff_right a.input_lt

theorem nodup_states (a : Nfa) : a.states.Nodup := a.graph.nodup_reachable a.input

theorem mem_alphabet {c : Char} : c ∈ a.alphabet ↔
    ∃ i, a.graph.Reaches a.input i ∧ ∃ j, j ∈ a.graph.targets i (.char c) := by
  simp only [alphabet, List.mem_eraseDups, List.mem_flatMap, List.mem_reverse, mem_states,
    List.mem_filterMap]
  apply exists_congr
  intro i
  rw [and_congr_right_iff]
  intro _
  constructor
  · rintro ⟨s, symbol, char⟩
    cases s with
    | epsilon => cases char
    | char d =>
      obtain rfl := Option.some.inj char
      exact Graph.mem_symbols.mp symbol
  · intro edge
    exact ⟨.char c, Graph.mem_symbols.mpr edge, rfl⟩

theorem nodup_alphabet (a : Nfa) : a.alphabet.Nodup := nodup_eraseDups _

end Nfa

end FiniteAutomata
