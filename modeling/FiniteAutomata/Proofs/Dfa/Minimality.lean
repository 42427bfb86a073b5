import FiniteAutomata.Proofs.Dfa.Determinizer
import FiniteAutomata.Proofs.Dfa.Trim

/-!
The last table made from an automaton is the least one for its words, if every state that can be
reached can also reach the output. The powerset table is trim then: its search only meets sets that
words lead to, and each set has a state that the output can be reached from.
-/

namespace FiniteAutomata

variable {a : Nfa} {b : Determinizer} {alphabet : List Char} {accept : Label} {d original : Dfa}
  {s t : StateSet} {i : Nat}

namespace Nfa

/-- Every state that can be reached can reach the output. -/
def Live (a : Nfa) : Prop :=
  ∀ i, a.graph.Reaches a.input i → a.graph.Reaches i a.output

/-- What holds of the first set and is kept by moves holds of all sets that words lead to. -/
theorem sets_induction {P : StateSet → Prop} (start : P a.startSet)
    (step : ∀ s t c, P s → c ∈ alphabet → a.graph.move s c = some t → P t) :
    ∀ s ∈ a.sets alphabet, P s := by
  have exhausts : Search.Exhausts (fun s => a.Attained s ∧ P s) (a.moves alphabet) [] [a.startSet]
      (a.reachableSets alphabet) := by
    apply Search.exhausts_breadthFirst _ ⟨a.attained_startSet, start⟩
    · exact fun sets distinct valid => a.atMost_attained sets distinct fun s hs => (valid s hs).1
    · intro s ⟨attained, holds⟩ t member
      obtain ⟨c, letter, moved⟩ := List.mem_map.mp member
      exact ⟨attained.move moved, step s t c holds letter moved⟩
  intro s member
  obtain ⟨e, he, rfl⟩ := List.mem_map.mp member
  exact (exhausts.valid e he).2

theorem exists_set_of_lt (made : a.powerset alphabet accept = .ok d) (lt : i < d.size) :
    ∃ s, (a.sets alphabet)[i]? = some s := by
  obtain ⟨r, row⟩ := Dfa.exists_row lt
  rw [getElem?_powerset made, Option.map_eq_some_iff] at row
  obtain ⟨s, set, -⟩ := row
  exact ⟨s, set⟩

/-- Some word leads to every row of the powerset automaton. -/
theorem exists_follow_powerset (made : a.powerset alphabet accept = .ok d)
    (covers : a.Covers alphabet) (lt : i < d.size) : ∃ w, d.follow 0 w = some i := by
  -- The search gives sets and not words, so its induction carries the word of every set along.
  have met : ∀ s ∈ a.sets alphabet, ∃ w n, d.follow 0 w = some n ∧ (a.sets alphabet)[n]? = some s := by
    apply sets_induction
    · exact ⟨[], 0, rfl, a.sets_zero alphabet⟩
    · rintro s t c ⟨w, n, followed, set⟩ letter moved
      have member := mem_sets_of_move (List.mem_of_getElem? set) letter moved
      obtain ⟨n', set'⟩ := List.mem_iff_getElem?.mp member
      refine ⟨w ++ [c], n', ?_, set'⟩
      rw [Dfa.follow_append, followed, Option.bind_some, Dfa.follow_cons,
        step?_powerset made covers set, moved, Option.bind_some, index?_powerset made set']
      rfl
  obtain ⟨s, set⟩ := exists_set_of_lt made lt
  obtain ⟨w, n, followed, set'⟩ := met s (List.mem_of_getElem? set)
  have bound := (List.getElem?_eq_some_iff.mp set).1
  have same := (List.getElem?_inj bound (a.nodup_sets alphabet)).mp (set.trans set'.symm)
  exact ⟨w, same ▸ followed⟩

/-- Every row of the powerset automaton accepts a word if every reachable state can reach the state
with the label `accept`. -/
theorem exists_acceptsFrom_powerset (made : a.powerset alphabet accept = .ok d)
    (covers : a.Covers alphabet) (known : (a.graph.state a.output).label = some accept)
    (live : a.Live) (lt : i < d.size) : ∃ w, d.acceptsFrom i w = true := by
  obtain ⟨s, set⟩ := exists_set_of_lt made lt
  have attained := attained_of_mem_sets (List.mem_of_getElem? set)
  obtain ⟨k, hk⟩ := List.exists_mem_of_ne_nil _ attained.nonempty
  obtain ⟨w, run⟩ := live k (attained.reached k hk)
  have ends := ends_follow made covers set w
  refine ⟨w, ?_⟩
  rw [Dfa.acceptsFrom]
  cases followed : d.follow i w with
  | none =>
    rw [followed] at ends
    exact absurd run (ends k hk a.output)
  | some n =>
    rw [followed] at ends
    obtain ⟨t, set', members⟩ := ends
    rw [Option.any_some, isAccepting_powerset made set']
    exact ⟨a.output, (members a.output).mpr ⟨k, hk, run⟩, known⟩

theorem Live.labelled (live : a.Live) : a.labelled.Live :=
  fun i reach => reaches_labelled.mpr (live i (reaches_labelled.mp reach))

end Nfa

/-- The powerset table of an automaton whose states are live is trim. -/
theorem Tabulated.trim_powerset (made : (Tabulated.powerset ⟨a, none⟩).2 = .ok d) (live : a.Live) :
    d.Trim 0 ∧ d.alphabet.Nodup := by
  obtain ⟨accept, known, made⟩ := of_powerset_eq_ok made
  have covers := a.labelled.covers_alphabet
  refine ⟨⟨fun i => Nfa.exists_follow_powerset made covers, fun i => ?_⟩, ?_⟩
  · exact Nfa.exists_acceptsFrom_powerset made covers known live.labelled
  · rw [Nfa.alphabet_powerset made]
    exact a.labelled.nodup_alphabet

namespace Determinizer

/-- After any requests the last table is made. It accepts what the first one accepts, and no table
that accepts this has fewer rows. -/
theorem exists_minimal_size_le (live : a.Live)
    (made : (Determinizer.powerset ⟨⟨a, none⟩, none, none⟩).2 = .ok original) :
    ∃ minimized, (∀ b, Requested a b → b.minimal.2 = .ok minimized) ∧
      (∀ w, minimized.accepts w = original.accepts w) ∧
      ∀ e : Dfa, (∀ w, e.accepts w = original.accepts w) → minimized.size ≤ e.size := by
  have made : (Tabulated.powerset ⟨a, none⟩).2 = .ok original :=
    (remembers_fresh a).powerset_eq.1.symm.trans made
  obtain ⟨closed, starts⟩ := Tabulated.closed_powerset made
  obtain ⟨trim, distinct⟩ := Tabulated.trim_powerset made live
  obtain ⟨merged, relabelled, renamed⟩ := closed.exists_relabel_eq_ok
  obtain ⟨minimized, minimal, accepts, least⟩ := renamed.closed.exists_minimize_size_le
    (renamed.startsAt starts) (renamed.trim trim) (renamed.alphabet ▸ distinct)
  refine ⟨minimized, fun b requested => ?_, fun w => ?_, fun e same => ?_⟩
  · exact (requested.tables_eq made relabelled minimal).2.2
  · rw [accepts, renamed.accepts_eq]
  · apply least
    intro w
    rw [same, renamed.accepts_eq]

theorem live_lastB : Tabulated.lastB.Live :=
  fun i reach => Tabulated.reaches_lastB i (reach.lt_size (by decide))

theorem exists_minimal_size_le_lastB : ∃ original minimized,
    (Determinizer.powerset ⟨⟨Tabulated.lastB, none⟩, none, none⟩).2 = .ok original ∧
    (original.size = 4 ∧ minimized.size = 3) ∧
    (∀ b, Requested Tabulated.lastB b → b.minimal.2 = .ok minimized) ∧
    (∀ w, minimized.accepts w = original.accepts w) ∧
    ∀ e : Dfa, (∀ w, e.accepts w = original.accepts w) → minimized.size ≤ e.size := by
  obtain ⟨table, original, made⟩ :=
    Tabulated.powerset_eq_ok Tabulated.plainLabels_lastB (Tabulated.reaches_lastB 0 (by decide))
  have made : (fresh Tabulated.lastB).powerset.2 = .ok original :=
    (remembers_fresh _).powerset_eq.1.trans (congrArg Prod.snd made)
  obtain ⟨minimized, tables, rest⟩ := exists_minimal_size_le live_lastB made
  exact ⟨original, minimized, made, sizes_lastB made (tables _ .fresh), tables, rest⟩

end Determinizer

end FiniteAutomata
