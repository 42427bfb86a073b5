import FiniteAutomata.Proofs.Fragment.Calls

/-!
Fragments on states of their own. Constructions that follow one another leave the states alone that
were there before, and the states that they add are those of their fragments; a call that uses all
these fragments makes them the states of its result.
-/

namespace FiniteAutomata.Fragment

variable {g g₁ g₂ : Graph} {xs ys : List Fragment} {z : Fragment}

/-- The states that make `g` into `g'` are those of the fragments, which are sound and share none. -/
structure Planted (g : Graph) (xs : List Fragment) (g' : Graph) : Prop where
  size_le : g.size ≤ g'.size
  kept : ∀ i < g.size, g'.state i = g.state i
  reached : ∀ i, (∃ x ∈ xs, g'.Reaches x.input i) ↔ g.size ≤ i ∧ i < g'.size
  sound : ∀ x ∈ xs, ∃ e, x.Sound g' e
  apart : xs.Pairwise (Apart g')

/-- A call adds two states at most, since all that it adds are ends of its result. -/
theorem Combined.size_le_add_two (call : Combined g xs z g₁) : g₁.size ≤ g.size + 2 := by
  by_contra more
  have first := call.fresh g.size (by omega) (by omega)
  have second := call.fresh (g.size + 1) (by omega) (by omega)
  have third := call.fresh (g.size + 2) (by omega) (by omega)
  omega

namespace Planted

theorem input_le (planted : Planted g xs g₁) {x : Fragment} (hx : x ∈ xs) : g.size ≤ x.input :=
  ((planted.reached x.input).mp ⟨x, hx, .refl g₁ x.input⟩).1

theorem output_le (planted : Planted g xs g₁) {x : Fragment} (hx : x ∈ xs) :
    g.size ≤ x.output := by
  obtain ⟨e, ready⟩ := planted.sound x hx
  exact ((planted.reached x.output).mp ⟨x, hx, ready.across⟩).1

protected theorem none (g : Graph) : Planted g [] g where
  size_le := Nat.le_refl _
  kept _ _ := rfl
  reached i := by
    simp only [List.not_mem_nil, false_and, exists_false, false_iff]
    omega
  sound := by simp
  apart := .nil

theorem append (first : Planted g xs g₁) (second : Planted g₁ ys g₂) :
    Planted g (xs ++ ys) g₂ := by
  have size_le := first.size_le
  -- What the first fragments reach is below the size of `g₁`, so the second leave it alone.
  have kept {x : Fragment} (hx : x ∈ xs) (i : Nat) (h : g₁.Reaches x.input i) :
      g₂.state i = g₁.state i :=
    second.kept i ((first.reached i).mp ⟨x, hx, h⟩).2
  have reach {x : Fragment} (hx : x ∈ xs) {i : Nat} : g₂.Reaches x.input i ↔ g₁.Reaches x.input i :=
    reaches_iff_of_kept (kept hx) (.refl g₁ x.input)
  have left (i : Nat) : (∃ x ∈ xs, g₂.Reaches x.input i) ↔ g.size ≤ i ∧ i < g₁.size := by
    rw [← first.reached]
    exact exists_congr fun x => and_congr_right fun hx => reach hx
  refine ⟨size_le.trans second.size_le, fun i lt => ?_, fun i => ?_, fun x hx => ?_, ?_⟩
  · rw [second.kept i (lt.trans_le size_le), first.kept i lt]
  · have := second.size_le
    simp only [List.mem_append, or_and_right, exists_or, left, second.reached]
    omega
  · rcases List.mem_append.mp hx with hx | hx
    · obtain ⟨e, ready⟩ := first.sound x hx
      exact ⟨e, ready.of_kept second.size_le (kept hx)⟩
    · exact second.sound x hx
  · refine List.pairwise_append.mpr ⟨?_, second.apart, fun x hx y hy i fromX fromY => ?_⟩
    · refine first.apart.imp_of_mem fun hx hy apart i fromX fromY => ?_
      exact apart i ((reach hx).mp fromX) ((reach hy).mp fromY)
    · have below := ((left i).mp ⟨x, hx, fromX⟩).2
      have above := ((second.reached i).mp ⟨y, hy, fromY⟩).1
      omega

theorem combine (planted : Planted g xs g₁) (call : Combined g₁ xs z g₂) : Planted g [z] g₂ := by
  have size_le := planted.size_le
  refine ⟨size_le.trans call.grows.size_le, fun i lt => ?_, fun i => ?_, ?_, ?_⟩
  · rw [call.grows.kept i (lt.trans_le size_le), planted.kept i lt]
    rintro ⟨x, hx, rfl | rfl⟩
    · exact absurd lt (Nat.not_lt_of_le (planted.input_le hx))
    · exact absurd lt (Nat.not_lt_of_le (planted.output_le hx))
  · simp only [List.mem_singleton, exists_eq_left]
    constructor
    · intro reach
      refine ⟨?_, reach.lt_size call.within.input_lt⟩
      rcases call.covered planted.sound reach with new | operand
      · exact size_le.trans new
      · exact ((planted.reached i).mp operand).1
    · -- A state of an operand is reached through its input, and a new one is an end of the result.
      rintro ⟨le, lt⟩
      rcases Nat.lt_or_ge i g₁.size with old | new
      · obtain ⟨x, hx, reach⟩ := (planted.reached i).mpr ⟨le, old⟩
        exact (call.inward x hx).trans (reach.mono call.grows.sub)
      · rcases call.fresh i new lt with rfl | rfl
        · exact .refl g₂ z.input
        · exact call.across
  · intro x hx
    obtain rfl := List.mem_singleton.mp hx
    exact ⟨_, call.sound planted.sound rfl⟩
  · exact List.pairwise_singleton ..

end Planted

end FiniteAutomata.Fragment
