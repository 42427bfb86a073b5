import FiniteAutomata.Proofs.Fragment.Assembly
import FiniteAutomata.Proofs.Graph.Reachability

/-!
What the automaton finished from a part accepts: all words of its pattern, and exactly these when
the ends of fragments were fresh in every call that adds a way around or back.
-/

namespace FiniteAutomata

open scoped Computability

variable {g₀ g : Graph} {parts : List Part} {part : Part}

/-- Finishing a fragment of the graph marks its input and changes nothing else. -/
theorem Nfa.ofFragment_eq_ok {x : Fragment} (within : x.In g) :
    Nfa.ofFragment g x = .ok {
      graph := g.withStarting x.input true
      input := x.input
      output := x.output
      input_lt := within.input_lt.trans_eq (Graph.size_withStarting ..).symm
      output_lt := within.output_lt.trans_eq (Graph.size_withStarting ..).symm } := by
  rw [ofFragment, Graph.setStarting_eq_ok true within.input_lt]
  show ofGraph _ _ _ = _
  rw [ofGraph, dif_pos]
  simpa only [Graph.size_withStarting] using And.intro within.input_lt within.output_lt

theorem Graph.run_withStarting {i j k : Nat} {starting : Bool} {w : List Char} :
    (g.withStarting i starting).Run j w k ↔ g.Run j w k := by
  rw [← mem_words, words_withStarting, mem_words]

/-- Finishing a sound fragment succeeds, and the automaton accepts the words between its ends. -/
theorem Fragment.Sound.finish {x : Fragment} {e : Ends} (ready : x.Sound g e) :
    ∃ a, Nfa.ofFragment g x = .ok a ∧ ∀ w, a.accepts w = true ↔ w ∈ e.through := by
  refine ⟨_, Nfa.ofFragment_eq_ok ready.within, fun w => ?_⟩
  have through : w ∈ e.through ↔ g.Run x.input w x.output := by
    rw [← ready.ends]
    rfl
  rw [through, Nfa.accepts, Graph.accepts_iff]
  simp only [Graph.run_withStarting, Graph.accepting_withStarting, Graph.size_withStarting]
  constructor
  · rintro ⟨-, j, run, flag⟩
    obtain rfl := (ready.accepting j ⟨w, run⟩).mp flag
    exact run
  · intro run
    exact ⟨ready.within.input_lt, x.output, run, (ready.accepting _ ready.across).mpr rfl⟩

/-! ### Calls on fresh ends -/

/-- A call that adds a way around its operand, or a way back on its own states, finds no edge to the
input and no edge from the output. -/
def FreshEnds (g : Graph) : Combination Part → Prop
  | .optional p | .star p => g.NoEntry p.fragment.input ∧ g.NoExit p.fragment.output
  | _ => True

namespace Pattern

theorem Exact.foldl {op : Pattern → Pattern → Pattern}
    (step : ∀ {p q : Pattern}, p.Exact → q.Exact → (op p q).Exact) {p : Pattern}
    {qs : List Pattern} (hp : p.Exact) (hqs : ∀ q ∈ qs, q.Exact) : (qs.foldl op p).Exact := by
  induction qs generalizing p with
  | nil => exact hp
  | cons q qs ih =>
    apply ih (step hp (hqs q List.mem_cons_self))
    intro r hr
    exact hqs r (List.mem_cons_of_mem q hr)

end Pattern

/-- No run comes back to an input without entry or goes on from an output without exit. -/
theorem Part.freshEnds (ready : part.fragment.Sound g part.pattern.ends)
    (entry : g.NoEntry part.fragment.input) (exit : g.NoExit part.fragment.output) :
    part.pattern.FreshEnds := by
  simp only [Pattern.FreshEnds, ← ready.ends, Graph.ends, Graph.words_of_noEntry entry,
    Graph.words_of_noExit exit, if_pos, if_neg ready.distinct.symm, and_self]

theorem Combination.exact_spelled {c : Combination Part} (fit : FreshEnds g c)
    (sound : ∀ p ∈ c.operands, p.fragment.Sound g p.pattern.ends)
    (exact : ∀ p ∈ c.operands, p.pattern.Exact) : c.spelled.Exact := by
  cases c with
  | char => rfl
  | concat p q => exact (exact p (by simp [operands])).concat (exact q (by simp [operands]))
  | union p q => exact (exact p (by simp [operands])).union (exact q (by simp [operands]))
  | optional p =>
    have mem : p ∈ (Combination.optional p).operands := by simp [operands]
    exact (exact p mem).optional (Part.freshEnds (sound p mem) fit.1 fit.2)
  | plus p => exact (exact p (by simp [operands])).plus
  | star p =>
    have mem : p ∈ (Combination.star p).operands := by simp [operands]
    exact (exact p mem).star (Part.freshEnds (sound p mem) fit.1 fit.2)
  | starFresh p => exact (exact p (by simp [operands])).starFresh
  | concatAll p ps =>
    apply Pattern.Exact.foldl Pattern.Exact.concat (exact p (by simp [operands]))
    intro q hq
    obtain ⟨r, hr, rfl⟩ := List.mem_map.mp hq
    exact exact r (by simp [operands, hr])
  | unionAll p ps =>
    apply Pattern.Exact.foldl Pattern.Exact.union (exact p (by simp [operands]))
    intro q hq
    obtain ⟨r, hr, rfl⟩ := List.mem_map.mp hq
    exact exact r (by simp [operands, hr])

theorem Assembly.exact (made : Assembly FreshEnds g₀ g parts) :
    ∀ p ∈ parts, p.pattern.Exact := by
  induction made with
  | start => simp
  | call before unused fit built run ih =>
    intro p hp
    rcases List.mem_cons.mp hp with rfl | hp
    · apply Combination.exact_spelled fit
      · exact fun q hq => before.live.sound q (unused.mem_iff.mpr (List.mem_append_left _ hq))
      · exact fun q hq => ih q (unused.mem_iff.mpr (List.mem_append_left _ hq))
    · exact ih p (unused.mem_iff.mpr (List.mem_append_right _ hp))

/-- On fresh ends, an automaton finished from a part accepts exactly the words of its pattern. -/
theorem accepts_iff_mem_language (made : Assembly FreshEnds g₀ g parts) (mem : part ∈ parts) :
    ∃ a, Nfa.ofFragment g part.fragment = .ok a ∧
      ∀ w, a.accepts w = true ↔ w ∈ part.pattern.language := by
  obtain ⟨a, finished, accepts⟩ := (made.live.sound part mem).finish
  refine ⟨a, finished, fun w => ?_⟩
  rw [accepts, made.exact part mem]

theorem Fragment.noEntry_char {c : Char} {x : Fragment} {g' : Graph}
    (run : (Fragment.char c).run g = .ok (x, g')) : g'.NoEntry x.input ∧ g'.NoExit x.output := by
  rw [run_char] at run
  cases run
  have size : ((g.add false).add true).size = g.size + 2 := by simp
  constructor
  · apply Graph.NoEntry.withEdge (by omega) (by omega)
    · intro i a h
      simp only [Graph.targets_add] at h
      exact Graph.noEntry_of_size_le (Nat.le_refl g.size) i a h
    · exact (Nat.lt_succ_self _).ne
  · apply Graph.NoExit.withEdge (by omega) (by omega)
    · intro a
      simp only [Graph.targets_add]
      exact Graph.noExit_of_size_le (Nat.le_succ _) a
    · exact (Nat.lt_succ_self _).ne'

/-- A fragment for `a`, made optional while its ends are fresh, beside one for `b`. -/
theorem accepts_iff_mem_optional_char : ∃ g x y,
    Assembly FreshEnds .empty g [⟨x, .optional (.char 'a')⟩, ⟨y, .char 'b'⟩] ∧
      ∃ a, Nfa.ofFragment g x = .ok a ∧
        ∀ w, a.accepts w = true ↔ w ∈ (Pattern.optional (.char 'a')).language := by
  have initial : Assembly FreshEnds .empty .empty [] := .start
  obtain ⟨y, g₁, beside⟩ := initial.exists_call (c := .char 'b') (.refl _) trivial
  have run := Fragment.run_char 'a' g₁
  have char := beside.call (c := .char 'a') (.refl _) trivial rfl run
  obtain ⟨x, g₂, made⟩ := char.exists_call (c := .optional _) (.refl _) (Fragment.noEntry_char run)
  exact ⟨g₂, x, y, made, accepts_iff_mem_language made List.mem_cons_self⟩

/-! ### All calls -/

/-- Every call on unused parts is allowed. -/
def AnyCall (_ : Graph) (_ : Combination Part) : Prop := True

/-- Without a condition on the ends, an automaton finished from a part accepts all words of its
pattern, and its language is that of the pattern just for the exact patterns. -/
theorem accepts_iff_mem_through (made : Assembly AnyCall g₀ g parts) (mem : part ∈ parts) :
    ∃ a, Nfa.ofFragment g part.fragment = .ok a ∧
      (∀ w, a.accepts w = true ↔ w ∈ part.pattern.ends.through) ∧
      (∀ w ∈ part.pattern.language, a.accepts w = true) ∧
      ((∀ w, a.accepts w = true ↔ w ∈ part.pattern.language) ↔ part.pattern.Exact) := by
  obtain ⟨a, finished, accepts⟩ := (made.live.sound part mem).finish
  refine ⟨a, finished, accepts, ?_, ?_⟩
  · intro w hw
    exact (accepts w).mpr (part.pattern.language_le_through hw)
  · constructor
    · intro same
      ext w
      rw [← accepts, same]
    · intro exact w
      rw [accepts, exact]

/-- The pattern `(a+b)?`. -/
def skippedLoop : Pattern := .optional (.concat (.plus (.char 'a')) (.char 'b'))

theorem exists_assembly_skippedLoop : ∃ g x, Assembly AnyCall .empty g [⟨x, skippedLoop⟩] := by
  have initial : Assembly AnyCall .empty .empty [] := .start
  obtain ⟨_, _, made⟩ := initial.exists_call (c := .char 'a') (.refl _) trivial
  obtain ⟨_, _, made⟩ := made.exists_call (c := .plus _) (.refl _) trivial
  obtain ⟨_, _, made⟩ := made.exists_call (c := .char 'b') (.refl _) trivial
  obtain ⟨_, _, made⟩ := made.exists_call (c := .concat _ _) (.swap _ _ _) trivial
  obtain ⟨x, g, made⟩ := made.exists_call (c := .optional _) (.refl _) trivial
  exact ⟨g, x, made⟩

theorem accepts_iff_mem_through_skippedLoop : ∃ g x,
    Assembly AnyCall .empty g [⟨x, skippedLoop⟩] ∧ ∃ a, Nfa.ofFragment g x = .ok a ∧
      (∀ w, a.accepts w = true ↔ w ∈ skippedLoop.ends.through) ∧
      (∀ w ∈ skippedLoop.language, a.accepts w = true) ∧
      ((∀ w, a.accepts w = true ↔ w ∈ skippedLoop.language) ↔ skippedLoop.Exact) := by
  obtain ⟨g, x, made⟩ := exists_assembly_skippedLoop
  exact ⟨g, x, made, accepts_iff_mem_through made List.mem_cons_self⟩

/-- The automaton of `(a+b)?` accepts `a`: the way around leaves from the loop. -/
theorem not_accepts_iff_mem_language : ¬ ∀ (g₀ g : Graph) (parts : List Part) (part : Part),
    Assembly AnyCall g₀ g parts → part ∈ parts → ∀ a, Nfa.ofFragment g part.fragment = .ok a →
      ∀ w, a.accepts w = true ↔ w ∈ part.pattern.language := by
  intro denotes
  obtain ⟨g, x, made⟩ := exists_assembly_skippedLoop
  obtain ⟨a, finished, accepts⟩ := (made.live.sound _ List.mem_cons_self).finish
  have same := denotes _ _ _ _ made List.mem_cons_self a finished ['a']
  rw [accepts] at same
  have once : ({['a']} : Language Char) ≤ {['a']}∗ := le_kstar
  have around : ['a'] ∈ ({['a']} : Language Char)∗ * 1 * 0∗ * 1 := by
    rw [kstar_zero, mul_one, mul_one, mul_one]
    exact once rfl
  rcases same.mp (.inr around) with ⟨u, -, v, hv, word⟩ | empty
  · obtain rfl : v = ['b'] := hv
    have last := congrArg List.getLast? word
    simp at last
  · exact absurd empty (List.cons_ne_nil _ _)

end FiniteAutomata
