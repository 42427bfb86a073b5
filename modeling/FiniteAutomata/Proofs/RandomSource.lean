import FiniteAutomata.RandomSource
import Mathlib.Tactic.Ring

/-!
Draws from a stream of words. Every draw from a range that is not empty returns, and the number drawn
is the next two words, read as one number of 64 bits, scaled to the range: leaving out the second word
where the first leaves a small fraction, and rounding up where it leaves a large one, changes nothing.
-/

namespace FiniteAutomata

/-- The next two words of a source as one number of 64 bits, scaled to a number below `n`. -/
def RandomSource.scaled (s : RandomSource) (n : Nat) : Nat :=
  ((s.word s.drawn).toNat * UInt32.size + (s.word (s.drawn + 1)).toNat) * n / UInt32.size ^ 2

namespace Draw

variable {n : Nat}

/-- Scaling the first word leaves a fraction, to which the second word is added. -/
theorem scaled_eq (s : RandomSource) (n : Nat) : s.scaled n =
    (s.word s.drawn).toNat * n / UInt32.size + ((s.word s.drawn).toNat * n % UInt32.size +
      (s.word (s.drawn + 1)).toNat * n / UInt32.size) / UInt32.size := by
  have pos : 0 < UInt32.size := by decide
  rw [RandomSource.scaled]
  generalize (s.word s.drawn).toNat = w
  generalize (s.word (s.drawn + 1)).toNat = v
  have regroup : (w * UInt32.size + v) * n = v * n + UInt32.size * (w * n) := by ring
  rw [regroup, pow_two, ← Nat.div_div_eq_div_mul, Nat.add_mul_div_left _ _ pos]
  conv_lhs => rw [← Nat.div_add_mod (w * n) UInt32.size, Nat.add_left_comm,
    Nat.mul_add_div pos, Nat.add_comm (v * n / _)]

theorem run_word_bind {α : Type} (s : RandomSource) (rest : UInt32 → Draw α) :
    (word >>= rest).run s = (rest (s.word s.drawn)).run { s with drawn := s.drawn + 1 } :=
  rfl

/-- A draw below `n` returns. With at most one number for each word, nothing is lost by scaling one
word at a time, since the second can add no more than one. -/
theorem exists_run_below (pos : 0 < n) (s : RandomSource) : ∃ k s',
    (below n).run s = .ok (k, s') ∧ (n ≤ UInt32.size → k.val = s.scaled n) := by
  have second := scaled_lt (s.word (s.drawn + 1)) pos
  have fraction : (s.word s.drawn).toNat * n % UInt32.size < UInt32.size :=
    Nat.mod_lt _ (by decide)
  rw [below, dif_pos pos, run_word_bind]
  simp only []
  split
  · rw [run_word_bind]
    split
    · next carry =>
      -- Without the bound on `n`, the second word could add more than the one that is carried.
      refine ⟨_, _, rfl, fun fits => ?_⟩
      dsimp only at carry
      have one : ((s.word s.drawn).toNat * n % UInt32.size +
          (s.word (s.drawn + 1)).toNat * n / UInt32.size) / UInt32.size = 1 :=
        Nat.div_eq_of_lt_le (by omega) (by omega)
      simp only [scaled_eq, one]
    · next stays =>
      refine ⟨_, _, rfl, fun _ => ?_⟩
      simp only [scaled_eq, Nat.div_eq_of_lt (Nat.lt_of_not_le stays), Nat.add_zero]
  · next small =>
    -- The second word adds less than `n`, so nothing would be carried.
    refine ⟨_, _, rfl, fun fits => ?_⟩
    have stays : (s.word s.drawn).toNat * n % UInt32.size +
        (s.word (s.drawn + 1)).toNat * n / UInt32.size < UInt32.size := by omega
    simp only [scaled_eq, Nat.div_eq_of_lt stays, Nat.add_zero]

theorem exists_run_symbol {alphabet : List Char} (nonempty : alphabet ≠ []) (s : RandomSource) :
    ∃ c s', (symbol alphabet).run s = .ok (c, s') ∧ c ∈ alphabet := by
  obtain ⟨k, s', run, -⟩ := exists_run_below (List.length_pos_iff.mpr nonempty) s
  refine ⟨alphabet.get k, s', ?_, List.get_mem alphabet k⟩
  rw [symbol, StateT.run_bind, run]
  rfl

end Draw

end FiniteAutomata
