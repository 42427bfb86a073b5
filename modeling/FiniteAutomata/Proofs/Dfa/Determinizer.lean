import FiniteAutomata.Dfa.Determinizer
import FiniteAutomata.Proofs.Dfa.Equivalence
import FiniteAutomata.Proofs.Dfa.LabelledSets
import FiniteAutomata.Proofs.Dfa.Relabel
import FiniteAutomata.Proofs.Dfa.Requests

/-!
The tables made from an automaton whose output is its only accepting state. All of them can be made
in any order of requests, and they accept what the automaton accepts.
-/

namespace FiniteAutomata

variable {a : Nfa} {b : Determinizer} {d original merged minimized : Dfa}

/-- The output can be reached, and no other reachable state accepts. -/
structure Nfa.SoleOutput (a : Nfa) : Prop where
  reaches : a.graph.Reaches a.input a.output
  accepting : ∀ i, a.graph.Reaches a.input i → ((a.graph.state i).accepting = true ↔ i = a.output)

theorem Nfa.SoleOutput.accepts_iff (sole : a.SoleOutput) (w : List Char) :
    a.accepts w = true ↔ a.graph.Run a.input w a.output := by
  rw [accepts, Graph.accepts_iff]
  constructor
  · rintro ⟨-, i, run, flag⟩
    obtain rfl := (sole.accepting i run.reaches).mp flag
    exact run
  · intro run
    exact ⟨a.input_lt, a.output, run, (sole.accepting _ run.reaches).mpr rfl⟩

/-- Reachable states have different labels, so only the output has the label of the output. -/
theorem Tabulated.accepts_powerset_iff (plain : a.PlainLabels)
    (reaches : a.graph.Reaches a.input a.output) (made : (Tabulated.powerset ⟨a, none⟩).2 = .ok d)
    (w : List Char) : d.accepts w = true ↔ a.graph.Run a.input w a.output := by
  obtain ⟨accept, known, made⟩ := of_powerset_eq_ok made
  rw [Nfa.accepts_powerset_iff made a.labelled.covers_alphabet]
  simp only [show a.labelled.input = a.input from rfl, Nfa.run_labelled]
  constructor
  · rintro ⟨i, run, same⟩
    obtain rfl := Nfa.distinct_labelled plain run.reaches reaches same known rfl
    exact run
  · intro run
    exact ⟨a.output, run, known⟩

theorem Tabulated.closed_powerset (made : (Tabulated.powerset ⟨a, none⟩).2 = .ok d) :
    d.Closed ∧ d.StartsAt 0 := by
  obtain ⟨accept, -, made⟩ := of_powerset_eq_ok made
  exact ⟨Nfa.closed_powerset made, Nfa.startsAt_powerset made⟩

/-- Renaming and merging a closed table that starts in one row succeed and keep its language. -/
theorem Dfa.Closed.exists_minimize_relabel (closed : d.Closed) {s : Nat} (starts : d.StartsAt s) :
    ∃ merged minimized, d.relabel = .ok merged ∧ merged.minimize = .ok minimized ∧
      ∀ w, merged.accepts w = d.accepts w ∧ minimized.accepts w = d.accepts w := by
  obtain ⟨merged, relabelled, renamed⟩ := closed.exists_relabel_eq_ok
  obtain ⟨p, minimized, made, respects, -, rows, -⟩ := renamed.closed.exists_minimize_classifies
  refine ⟨merged, minimized, relabelled, made, fun w => ⟨renamed.accepts_eq w, ?_⟩⟩
  rw [accepts_place respects rows (renamed.startsAt starts), renamed.accepts_eq]

/-! ### Requests -/

namespace Determinizer

/-- The determinizers that requests for tables lead to, in any order and number. -/
inductive Requested (a : Nfa) : Determinizer → Prop
  | fresh : Requested a ⟨⟨a, none⟩, none, none⟩
  | powerset {b : Determinizer} : Requested a b → Requested a b.powerset.1
  | renamed {b : Determinizer} : Requested a b → Requested a b.renamed.1
  | minimal {b : Determinizer} : Requested a b → Requested a b.minimal.1

theorem Requested.remembers (requested : Requested a b) : Remembers ⟨a, none⟩ b := by
  induction requested with
  | fresh => exact remembers_fresh a
  | powerset _ ih => exact ih.powerset_eq.2
  | renamed _ ih => exact ih.renamed_eq.2
  | minimal _ ih => exact ih.minimal_eq.2

/-- If nothing fails, every request is answered by the table that it computes at first. -/
theorem Requested.tables_eq (requested : Requested a b)
    (made : (Tabulated.powerset ⟨a, none⟩).2 = .ok original)
    (relabelled : original.relabel = .ok merged) (minimal : merged.minimize = .ok minimized) :
    b.powerset.2 = .ok original ∧ b.renamed.2 = .ok merged ∧ b.minimal.2 = .ok minimized := by
  have remembers := requested.remembers
  have renamed : Request.renamed.compute ⟨a, none⟩ = .ok merged := by
    rw [Request.compute, made]
    exact relabelled
  have last : Request.minimal.compute ⟨a, none⟩ = .ok minimized := by
    show (Request.renamed.compute ⟨a, none⟩).bind Dfa.minimize = _
    rw [renamed]
    exact minimal
  refine ⟨?_, ?_, ?_⟩
  · rw [remembers.powerset_eq.1]
    exact made
  · rw [remembers.renamed_eq.1, renamed]
  · rw [remembers.minimal_eq.1, last]

/-- All three tables are made, after any requests, and each accepts what the automaton accepts. -/
theorem exists_tables_accepts_eq (sole : a.SoleOutput) (plain : a.PlainLabels) :
    ∃ original merged minimized,
      (∀ b, Requested a b → b.powerset.2 = .ok original ∧ b.renamed.2 = .ok merged ∧
        b.minimal.2 = .ok minimized) ∧
      ∀ w, original.accepts w = a.accepts w ∧ merged.accepts w = a.accepts w ∧
        minimized.accepts w = a.accepts w := by
  obtain ⟨table, original, made⟩ := Tabulated.powerset_eq_ok plain sole.reaches
  have made := congrArg Prod.snd made
  obtain ⟨closed, starts⟩ := Tabulated.closed_powerset made
  obtain ⟨merged, minimized, relabelled, minimal, same⟩ := closed.exists_minimize_relabel starts
  refine ⟨original, merged, minimized, fun b requested => ?_, fun w => ?_⟩
  · exact requested.tables_eq made relabelled minimal
  · have language : original.accepts w = a.accepts w := by
      rw [Bool.eq_iff_iff, Tabulated.accepts_powerset_iff plain sole.reaches made,
        sole.accepts_iff]
    rw [(same w).1, (same w).2]
    exact ⟨language, language, language⟩

theorem soleOutput_lastB : Tabulated.lastB.SoleOutput where
  reaches := Tabulated.reaches_lastB 0 (by decide)
  accepting i reach := by
    have flags : ∀ i < 5, (Tabulated.lastB.graph.state i).accepting = true ↔ i = 3 := by decide
    exact flags i (reach.lt_size (by decide))

/-- Four sets of states, of which two are merged. -/
theorem sizes_lastB (first : (fresh Tabulated.lastB).powerset.2 = .ok original)
    (last : (fresh Tabulated.lastB).minimal.2 = .ok minimized) :
    original.size = 4 ∧ minimized.size = 3 := by
  have sizes : (Request.powerset.compute ⟨Tabulated.lastB, none⟩).toOption.map Dfa.size = some 4 ∧
      (Request.minimal.compute ⟨Tabulated.lastB, none⟩).toOption.map Dfa.size = some 3 := by
    rw [Request.compute, Request.compute, ← Tabulated.powerset_labelled, Tabulated.labelled_lastB]
    decide +kernel
  rw [← (remembers_fresh _).powerset_eq.1, ← (remembers_fresh _).minimal_eq.1, first, last] at sizes
  exact ⟨Option.some.inj sizes.1, Option.some.inj sizes.2⟩

theorem exists_tables_accepts_eq_lastB : ∃ original merged minimized,
    (original.size = 4 ∧ minimized.size = 3) ∧
    (∀ b, Requested Tabulated.lastB b → b.powerset.2 = .ok original ∧
      b.renamed.2 = .ok merged ∧ b.minimal.2 = .ok minimized) ∧
    ∀ w, original.accepts w = Tabulated.lastB.accepts w ∧
      merged.accepts w = Tabulated.lastB.accepts w ∧
      minimized.accepts w = Tabulated.lastB.accepts w := by
  obtain ⟨original, merged, minimized, tables, same⟩ :=
    exists_tables_accepts_eq soleOutput_lastB Tabulated.plainLabels_lastB
  obtain ⟨first, -, last⟩ := tables _ .fresh
  exact ⟨original, merged, minimized, sizes_lastB first last, tables, same⟩

end Determinizer

end FiniteAutomata
