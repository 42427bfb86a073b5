import FiniteAutomata.Errors

/-!
Drawing numbers and words from a stream of 32-bit words. A number below `n` is the integer part of
a word scaled to `n`; the fraction lost is made up for by a second word where it can matter.
-/

namespace FiniteAutomata

/-- A stream of random words and how many of them have been used. -/
structure RandomSource where
  word : Nat → UInt32
  drawn : Nat := 0

abbrev Draw := StateT RandomSource (Except Misuse)

namespace Draw

def word : Draw UInt32 :=
  modifyGet fun s => (s.word s.drawn, { s with drawn := s.drawn + 1 })

theorem scaled_lt (w : UInt32) {n : Nat} (h : 0 < n) : w.toNat * n / UInt32.size < n := by
  have := Nat.mul_lt_mul_of_pos_right w.toNat_lt h
  simp only [UInt32.size]
  omega

/-- A scaled word that leaves a fraction this large can be rounded up. -/
theorem scaled_succ_lt (w : UInt32) {n : Nat} (h : UInt32.size - n < w.toNat * n % UInt32.size) :
    w.toNat * n / UInt32.size + 1 < n := by
  have := Nat.mul_le_mul_right n (Nat.le_sub_one_of_lt w.toNat_lt)
  simp only [UInt32.size] at *
  generalize w.toNat * n = x at *
  omega

/-- A number below `n`. A second word is drawn when the first leaves a fraction so large that the
part of it which scaling cut off may carry over. -/
def below (n : Nat) : Draw (Fin n) :=
  if h : 0 < n then do
    let w ← word
    let first : Fin n := ⟨w.toNat * n / UInt32.size, scaled_lt w h⟩
    if large : UInt32.size - n < w.toNat * n % UInt32.size then
      let v ← word
      if UInt32.size ≤ w.toNat * n % UInt32.size + v.toNat * n / UInt32.size then
        return ⟨first.val + 1, scaled_succ_lt w large⟩
    return first
  else throw .emptyRange

def symbol (alphabet : List Char) : Draw Char := do
  return alphabet.get (← below alphabet.length)

def symbols (alphabet : List Char) : Nat → Draw (List Char)
  | 0 => return []
  | n + 1 => do
    let c ← symbol alphabet
    return c :: (← symbols alphabet n)

/-- A word of at most `max` characters. -/
def text (alphabet : List Char) (max : Nat) : Draw (List Char) := do
  symbols alphabet (← below (max + 1)).val

end Draw

end FiniteAutomata
