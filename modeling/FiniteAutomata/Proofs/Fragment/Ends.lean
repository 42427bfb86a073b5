import Mathlib.Computability.Language
import Mathlib.Order.CompletePartialOrder

/-!
What patterns denote, and what the fragments built for them do. A fragment is described by the words
of runs between its two ends, in all four directions; the words from input to output are those of
its pattern, and possibly more. `language_le_through` says that no word of the pattern is lost.
-/

namespace FiniteAutomata

open scoped Computability

/-- The words of runs between the ends of a fragment. -/
structure Ends where
  /-- From the input back to it. -/
  atInput : Language Char
  /-- From the input to the output. -/
  through : Language Char
  /-- From the output to the input. -/
  back : Language Char
  /-- From the output back to it. -/
  atOutput : Language Char

namespace Ends

def char (c : Char) : Ends := ⟨1, {[c]}, 0, 1⟩

def concat (d e : Ends) : Ends := ⟨d.atInput, d.through * e.through, 0, e.atOutput⟩

def union (d e : Ends) : Ends := ⟨1, d.through + e.through, 0, 1⟩

/-- An epsilon edge from the input to the output joins runs that end at the input with runs that
start at the output. -/
def optional (e : Ends) : Ends where
  atInput := e.atInput * e.back∗
  through := e.through + e.atInput * e.back∗ * e.atOutput
  back := e.back * e.back∗
  atOutput := e.back∗ * e.atOutput

/-- An epsilon edge from the output to the input joins runs that end at the output with runs that
start at the input. -/
def plus (e : Ends) : Ends where
  atInput := e.through∗ * e.atInput
  through := e.through * e.through∗
  back := e.back + e.atOutput * e.through∗ * e.atInput
  atOutput := e.atOutput * e.through∗

/-- With epsilon edges in both directions the two ends are like one state. -/
def star (e : Ends) : Ends :=
  let loop := (e.atInput + e.through + e.back + e.atOutput)∗
  ⟨loop, loop, loop, loop⟩

def starFresh (e : Ends) : Ends := ⟨1, e.through∗, 0, e.through∗⟩

/-- An edge from the output to the input and one from the input to the output make one state of the
two ends. -/
theorem through_plus_optional {e : Ends} (atInput : 1 ≤ e.atInput) (atOutput : 1 ≤ e.atOutput) :
    e.plus.optional.through = e.star.through := by
  obtain ⟨i, t, b, o⟩ := e
  change 1 ≤ i at atInput
  change 1 ≤ o at atOutput
  show t * t∗ + t∗ * i * (b + o * t∗ * i)∗ * (o * t∗) = (i + t + b + o)∗
  apply le_antisymm
  · generalize total : i + t + b + o = s
    have parts := total.le.trans le_kstar
    simp only [add_le_iff] at parts
    obtain ⟨⟨⟨hi, ht⟩, hb⟩, ho⟩ := parts
    have back : b + o * t∗ * i ≤ s∗ := by
      apply add_le hb
      grw [hi, ht, ho]
      simp only [kstar_idem, kstar_mul_kstar, le_refl]
    apply add_le
    · grw [ht]
      simp only [kstar_idem, kstar_mul_kstar, le_refl]
    · grw [back, hi, ht, ho]
      simp only [kstar_idem, kstar_mul_kstar, le_refl]
  · -- `out` is what can follow at the output: it may go back any number of times.
    generalize hout : (b + o * t∗ * i)∗ * (o * t∗) = out
    have again : (b + o * t∗ * i) * out ≤ out := by
      rw [← hout, ← mul_assoc]
      grw [mul_kstar_le_kstar]
    rw [add_mul, add_le_iff] at again
    obtain ⟨back, around⟩ := again
    have enter : t∗ * i * out ≤ out := by
      calc t∗ * i * out = 1 * (t∗ * i * out) := (one_mul _).symm
        _ ≤ o * (t∗ * i * out) := by grw [atOutput]
        _ ≤ out := by simpa only [mul_assoc] using around
    have start : out ≤ t∗ * i * out := le_mul_of_one_le_left' (one_le_mul one_le_kstar atInput)
    have loop : (i + t + b + o)∗ ≤ out := by
      apply kstar_le_of_mul_le_right
      · rw [← hout]
        exact one_le_mul one_le_kstar (one_le_mul atOutput one_le_kstar)
      · simp only [add_mul, add_le_iff]
        refine ⟨⟨⟨?_, ?_⟩, back⟩, ?_⟩
        · calc i * out = 1 * (i * out) := (one_mul _).symm
            _ ≤ t∗ * (i * out) := by grw [one_le_kstar]
            _ ≤ out := by rwa [← mul_assoc]
        · calc t * out ≤ t * (t∗ * i * out) := by grw [start]
            _ = t * t∗ * i * out := by simp only [mul_assoc]
            _ ≤ t∗ * i * out := by grw [mul_kstar_le_kstar]
            _ ≤ out := enter
        · calc o * out ≤ o * (t∗ * i * out) := by grw [start]
            _ ≤ out := by simpa only [mul_assoc] using around
    rw [mul_assoc, hout]
    exact (loop.trans start).trans le_add_self

end Ends

/-- The calls that make a fragment, as a tree. -/
inductive Pattern where
  | char (c : Char)
  | concat (p q : Pattern)
  | union (p q : Pattern)
  | optional (p : Pattern)
  | plus (p : Pattern)
  | star (p : Pattern)
  | starFresh (p : Pattern)
deriving DecidableEq

namespace Pattern

/-- The words that a pattern stands for. -/
def language : Pattern → Language Char
  | char c => {[c]}
  | concat p q => p.language * q.language
  | union p q => p.language + q.language
  | optional p => p.language + 1
  | plus p => p.language * p.language∗
  | star p => p.language∗
  | starFresh p => p.language∗

/-- The words between the ends of the fragment that is built for a pattern. -/
def ends : Pattern → Ends
  | char c => .char c
  | concat p q => p.ends.concat q.ends
  | union p q => p.ends.union q.ends
  | optional p => p.ends.optional
  | plus p => p.ends.plus
  | star p => p.ends.star
  | starFresh p => p.ends.starFresh

theorem one_le_atInput (p : Pattern) : 1 ≤ p.ends.atInput := by
  induction p with
  | char | union | starFresh => exact le_rfl
  | concat _ _ ih _ => exact ih
  | optional _ ih => exact one_le_mul ih one_le_kstar
  | plus _ ih => exact one_le_mul one_le_kstar ih
  | star => exact one_le_kstar

theorem one_le_atOutput (p : Pattern) : 1 ≤ p.ends.atOutput := by
  induction p with
  | char | union => exact le_rfl
  | concat _ _ _ ih => exact ih
  | optional _ ih => exact one_le_mul one_le_kstar ih
  | plus _ ih => exact one_le_mul ih one_le_kstar
  | star | starFresh => exact one_le_kstar

theorem language_le_through (p : Pattern) : p.language ≤ p.ends.through := by
  induction p with
  | char => exact le_rfl
  | concat p q ihp ihq => exact mul_le_mul' ihp ihq
  | union p q ihp ihq => exact add_le_add ihp ihq
  | optional p ih =>
    have empty : 1 ≤ p.ends.atInput * p.ends.back∗ * p.ends.atOutput :=
      one_le_mul (one_le_mul p.one_le_atInput one_le_kstar) p.one_le_atOutput
    exact add_le_add ih empty
  | plus p ih => exact mul_le_mul' ih (kstar_mono ih)
  | star p ih =>
    apply kstar_mono
    exact le_add_right (le_add_right (le_add_left ih))
  | starFresh p ih => exact kstar_mono ih

/-- The fragment for the pattern accepts no word but those of the pattern. -/
def Exact (p : Pattern) : Prop := p.ends.through = p.language

theorem Exact.concat {p q : Pattern} (hp : p.Exact) (hq : q.Exact) : (concat p q).Exact :=
  congrArg₂ (· * ·) hp hq

theorem Exact.union {p q : Pattern} (hp : p.Exact) (hq : q.Exact) : (union p q).Exact :=
  congrArg₂ (· + ·) hp hq

theorem Exact.plus {p : Pattern} (hp : p.Exact) : (plus p).Exact := by
  show p.ends.through * p.ends.through∗ = p.language * p.language∗
  rw [hp]

theorem Exact.starFresh {p : Pattern} (hp : p.Exact) : (starFresh p).Exact :=
  congrArg (·∗) hp

/-- No run comes back to the input or goes on from the output. -/
def FreshEnds (p : Pattern) : Prop :=
  p.ends.atInput = 1 ∧ p.ends.back = 0 ∧ p.ends.atOutput = 1

theorem Exact.optional {p : Pattern} (hp : p.Exact) (fresh : p.FreshEnds) :
    (optional p).Exact := by
  obtain ⟨atInput, back, atOutput⟩ := fresh
  show p.ends.through + p.ends.atInput * p.ends.back∗ * p.ends.atOutput = p.language + 1
  rw [hp, atInput, back, atOutput, kstar_zero, mul_one, mul_one]

theorem Exact.star {p : Pattern} (hp : p.Exact) (fresh : p.FreshEnds) : (star p).Exact := by
  obtain ⟨atInput, back, atOutput⟩ := fresh
  show (p.ends.atInput + p.ends.through + p.ends.back + p.ends.atOutput)∗ = p.language∗
  rw [hp, atInput, back, atOutput, add_zero]
  apply le_antisymm
  · apply kstar_le_of_mul_le_left one_le_kstar
    rw [mul_add, mul_add, mul_one]
    exact add_le (add_le le_rfl kstar_mul_le_kstar) le_rfl
  · exact kstar_mono (le_add_right (le_add_left le_rfl))

def concatAll (p : Pattern) (qs : List Pattern) : Pattern := qs.foldl concat p

def unionAll (p : Pattern) (qs : List Pattern) : Pattern := qs.foldl union p

theorem language_concatAll (p : Pattern) (qs : List Pattern) :
    (concatAll p qs).language = ((p :: qs).map language).prod := by
  induction qs generalizing p with
  | nil => simp [concatAll]
  | cons q qs ih =>
    rw [concatAll, List.foldl_cons, ← concatAll, ih]
    simp [language, mul_assoc]

theorem language_unionAll (p : Pattern) (qs : List Pattern) :
    (unionAll p qs).language = ((p :: qs).map language).sum := by
  induction qs generalizing p with
  | nil => simp [unionAll]
  | cons q qs ih =>
    rw [unionAll, List.foldl_cons, ← unionAll, ih]
    simp [language, sup_assoc]

end Pattern

end FiniteAutomata
