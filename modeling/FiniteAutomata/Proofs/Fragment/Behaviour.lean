import FiniteAutomata.Fragment.Lemmas
import FiniteAutomata.Proofs.Fragment.Ends
import FiniteAutomata.Proofs.Graph.Words

/-!
What each combinator does to the words between the ends of its operands. Those that wire a single
fragment do it on any graph; those that join two fragments, on fragments that share no state.
-/

namespace FiniteAutomata

open scoped Computability

namespace Graph

def ends (g : Graph) (x : Fragment) : Ends where
  atInput := g.words x.input x.input
  through := g.words x.input x.output
  back := g.words x.output x.input
  atOutput := g.words x.output x.output

end Graph

namespace Fragment

variable {g g' : Graph} {x y z : Fragment}

/-- No state can be reached from the inputs of both fragments. -/
def Apart (g : Graph) (x y : Fragment) : Prop :=
  ∀ i, g.Reaches x.input i → ¬ g.Reaches y.input i

theorem Apart.symm (h : Apart g x y) : Apart g y x := fun i hy hx => h i hx hy

theorem Apart.words_eq_zero (h : Apart g x y) {i j : Nat} (hi : g.Reaches x.input i)
    (hj : g.Reaches y.input j) : g.words i j = 0 :=
  Graph.words_of_not_reaches fun run => h j (hi.trans run) hj

/-! ### One fragment -/

section Kleene

variable {K : Type} [KleeneAlgebra K]

theorem add_mul_kstar_mul (a b : K) : a + a * b∗ * b = a * b∗ := by
  calc a + a * b∗ * b = a * (1 + b∗ * b) := by rw [mul_add, mul_one, mul_assoc]
    _ = a * b∗ := by rw [one_add_kstar_mul]

theorem add_mul_kstar_mul' (a b : K) : b + a * a∗ * b = a∗ * b := by
  calc b + a * a∗ * b = (1 + a * a∗) * b := by rw [add_mul, one_mul]
    _ = a∗ * b := by rw [one_add_mul_kstar]

end Kleene

theorem ends_optional (hx : x.In g) (run : x.optional.run g = .ok (z, g')) :
    z = x ∧ g'.ends x = (g.ends x).optional := by
  rw [run_optional hx] at run
  cases run
  refine ⟨rfl, ?_⟩
  have edge := Graph.words_withEdge hx.input_lt .epsilon hx.output_lt
  simp only [Symbol.words, mul_one] at edge
  simp only [Graph.ends, Ends.optional, edge, add_mul_kstar_mul, add_mul_kstar_mul']

theorem ends_plus (hx : x.In g) (run : x.plus.run g = .ok (z, g')) :
    z = x ∧ g'.ends x = (g.ends x).plus := by
  rw [run_plus hx] at run
  cases run
  refine ⟨rfl, ?_⟩
  have edge := Graph.words_withEdge hx.output_lt .epsilon hx.input_lt
  simp only [Symbol.words, mul_one] at edge
  simp only [Graph.ends, Ends.plus, edge, add_mul_kstar_mul, add_mul_kstar_mul']

/-- States with silent runs in both directions have the same runs. -/
theorem ends_of_joined (there : 1 ≤ g.words x.input x.output)
    (back : 1 ≤ g.words x.output x.input) :
    let loop := g.words x.input x.output
    g.ends x = ⟨loop, loop, loop, loop⟩ := by
  have route {i j k : Nat} : g.words i j * g.words j k ≤ g.words i k := g.words_mul_words_le i j k
  have atInput : g.words x.input x.input = g.words x.input x.output := by
    apply le_antisymm
    · exact (le_mul_of_one_le_right' there).trans route
    · exact (le_mul_of_one_le_right' back).trans route
  have atOutput : g.words x.output x.output = g.words x.input x.output := by
    apply le_antisymm
    · exact (le_mul_of_one_le_left' there).trans route
    · exact (le_mul_of_one_le_left' back).trans route
  have backward : g.words x.output x.input = g.words x.input x.output := by
    rw [← atInput]
    apply le_antisymm
    · exact (le_mul_of_one_le_left' there).trans route
    · exact (le_mul_of_one_le_left' back).trans route
  simp only [Graph.ends, atInput, atOutput, backward]

/-- Two edges between the ends are added one by one: `star` is `plus` and then `optional`. -/
theorem ends_star (hx : x.In g) (run : x.star.run g = .ok (z, g')) :
    z = x ∧ g'.ends x = (g.ends x).star := by
  rw [run_star hx] at run
  cases run
  refine ⟨rfl, ?_⟩
  have ⟨hi, ho⟩ := hx
  have plus := (ends_plus hx (run_plus hx)).2
  have back := Graph.words_of_mem_targets (Graph.mem_targets_withEdge ho .epsilon hi)
  have size : (g.withEdge x.output .epsilon x.input).size = g.size := Graph.size_withEdge ..
  generalize g.withEdge x.output .epsilon x.input = g₁ at *
  have hx₁ : x.In g₁ := ⟨size ▸ hi, size ▸ ho⟩
  have optional := (ends_optional hx₁ (run_optional hx₁)).2
  have mono := Graph.words_mono (Graph.targets_subset_withEdge hx₁.input_lt .epsilon hx₁.output_lt)
  have there := Graph.words_of_mem_targets
    (Graph.mem_targets_withEdge hx₁.input_lt .epsilon hx₁.output_lt)
  generalize g₁.withEdge x.input .epsilon x.output = g₂ at *
  have loop : g₂.words x.input x.output = (g.ends x).star.through := by
    have same := congrArg Ends.through optional
    rwa [plus, Ends.through_plus_optional (g.one_le_words _) (g.one_le_words _)] at same
  rw [ends_of_joined there (back.trans (mono _ _)), loop]
  rfl

/-- Two states without edges around a fragment, and the four edges of the fresh star. -/
theorem ends_starEdges (hx : x.In g) {n m : Nat} (hn : n < g.size) (hm : m < g.size) (nm : n ≠ m)
    (ne : x.input ≠ n ∧ x.output ≠ n ∧ x.input ≠ m ∧ x.output ≠ m)
    (isolated : (g.NoEntry n ∧ g.NoExit n) ∧ g.NoEntry m ∧ g.NoExit m) :
    Graph.ends ((((g.withEdge n .epsilon x.input).withEdge x.output .epsilon m).withEdge n .epsilon
      m).withEdge m .epsilon x.input) ⟨n, m⟩ = (g.ends x).starFresh := by
  obtain ⟨hi, ho⟩ := hx
  obtain ⟨ni, no, mi, mo⟩ := ne
  obtain ⟨⟨entryN, exitN⟩, entryM, exitM⟩ := isolated
  have words₁ := Graph.words_withEdge_of_noEntry hn hi ni entryN
  have entryN₁ := entryN.withEdge hn hi ni.symm .epsilon
  have exitM₁ := exitM.withEdge hn hi nm.symm .epsilon
  have size₁ := Graph.size_withEdge g n .epsilon x.input
  generalize g.withEdge n .epsilon x.input = g₁ at *
  have words₂ := Graph.words_withEdge_of_noExit (size₁ ▸ ho) (size₁ ▸ hm) mo.symm exitM₁
  have entryN₂ := entryN₁.withEdge (size₁ ▸ ho) (size₁ ▸ hm) nm .epsilon
  have size₂ := (Graph.size_withEdge g₁ x.output .epsilon m).trans size₁
  generalize g₁.withEdge x.output .epsilon m = g₂ at *
  have words₃ := Graph.words_withEdge_of_noEntry (size₂ ▸ hn) (size₂ ▸ hm) nm.symm entryN₂
  have size₃ := (Graph.size_withEdge g₂ n .epsilon m).trans size₂
  generalize g₂.withEdge n .epsilon m = g₃ at *
  have words₄ := Graph.words_withEdge (size₃ ▸ hm) .epsilon (size₃ ▸ hi)
  have fromN := Graph.words_of_noExit exitN
  have fromM := Graph.words_of_noExit exitM
  have toN := Graph.words_of_noEntry entryN
  have toM := Graph.words_of_noEntry entryM
  -- The last edge closes the loop; before it, no run goes through the fragment twice.
  have loop : g₃.words x.input m = g.words x.input x.output := by
    simp [words₃, words₂, words₁, toM, ni, mi]
  have skip : g₃.words n m = g.words x.input x.output + 1 := by
    simp [words₃, words₂, words₁, fromN, fromM, toM, nm, nm.symm, mi, no.symm, mo.symm]
  have atN : g₃.words n n = 1 := by
    simp [words₃, words₂, words₁, fromM, toN, ni, nm, nm.symm]
  have atM : g₃.words m m = 1 := by
    simp [words₃, words₂, words₁, fromM, nm.symm, mo.symm]
  have mn : g₃.words m n = 0 := by simp [words₃, words₂, words₁, fromM, nm, nm.symm]
  have xn : g₃.words x.input n = 0 := by simp [words₃, words₂, words₁, toN, ni, nm]
  simp only [Graph.ends, Ends.starFresh, words₄, loop, skip, atN, atM, mn, xn, Symbol.words,
    mul_one, one_mul, mul_zero, add_zero, one_add_kstar_mul, add_mul_kstar_mul, Ends.mk.injEq,
    and_true, true_and]
  rw [add_mul, one_mul]
  exact mul_kstar_le_kstar.add_eq_right

theorem ends_starFresh (hx : x.In g) (run : x.starFresh.run g = .ok (z, g')) :
    z = ⟨g.size, g.size + 1⟩ ∧ g'.ends z = (g.ends x).starFresh := by
  rw [run_starFresh hx] at run
  cases run
  refine ⟨rfl, ?_⟩
  obtain ⟨hi, ho⟩ := hx
  generalize hg₀ : ((g.withAccepting x.output false).add false).add true = g₀
  have words₀ (p q : Nat) : g₀.words p q = g.words p q := by
    rw [← hg₀, Graph.words_add, Graph.words_add, Graph.words_withAccepting]
  have size : g₀.size = g.size + 2 := by simp [← hg₀]
  have entry {k : Nat} (h : g.size ≤ k) : g₀.NoEntry k := by
    intro p a
    simpa [← hg₀] using Graph.noEntry_of_size_le h p a
  have exit {k : Nat} (h : g.size ≤ k) : g₀.NoExit k := by
    intro a
    simpa [← hg₀] using Graph.noExit_of_size_le h a
  have same : g₀.ends x = g.ends x := by simp only [Graph.ends, words₀]
  rw [← same]
  apply ends_starEdges ⟨by omega, by omega⟩ (by omega) (by omega) (by omega)
  · and_intros <;> omega
  · exact ⟨⟨entry le_rfl, exit le_rfl⟩, entry (Nat.le_succ _), exit (Nat.le_succ _)⟩

/-! ### New fragments and pairs of fragments -/

theorem ends_char {c : Char} (run : (Fragment.char c).run g = .ok (z, g')) :
    z = ⟨g.size, g.size + 1⟩ ∧ g'.ends z = .char c := by
  rw [run_char] at run
  cases run
  refine ⟨rfl, ?_⟩
  have size : ((g.add false).add true).size = g.size + 2 := by simp
  have edge := Graph.words_withEdge (g := (g.add false).add true) (i := g.size) (j := g.size + 1)
    (by omega) (.char c) (by omega)
  have fromN := Graph.words_of_noExit (Graph.noExit_of_size_le (Nat.le_refl g.size))
  have fromM := Graph.words_of_noExit (Graph.noExit_of_size_le (Nat.le_add_right g.size 1))
  simp only [Graph.words_add] at edge
  simp [Graph.ends, Ends.char, edge, fromN, fromM, Symbol.words]

theorem ends_concat (hx : x.In g) (hy : y.In g) (apart : Apart g x y)
    (acrossX : g.Reaches x.input x.output) (acrossY : g.Reaches y.input y.output)
    (run : (x.concat y).run g = .ok (z, g')) :
    z = ⟨x.input, y.output⟩ ∧ g'.ends z = (g.ends x).concat (g.ends y) := by
  rw [run_concat hx hy] at run
  cases run
  refine ⟨rfl, ?_⟩
  have edge := Graph.words_withEdge (g := (g.withAccepting x.output false).withAccepting y.output
    true) (by simpa using hx.output_lt) .epsilon (by simpa using hy.input_lt)
  simp only [Graph.words_withAccepting, Symbol.words, mul_one] at edge
  have self := Graph.Reaches.refl g
  have onto := apart.words_eq_zero (self x.input) acrossY
  have toX := apart.symm.words_eq_zero (self y.input) (self x.input)
  have returns := apart.symm.words_eq_zero (self y.input) acrossX
  have outToX := apart.symm.words_eq_zero acrossY (self x.input)
  have outReturns := apart.symm.words_eq_zero acrossY acrossX
  simp only [Graph.ends, Ends.concat, edge, onto, toX, returns, outToX, outReturns, kstar_zero,
    mul_one, mul_zero, zero_mul, add_zero, zero_add]

theorem ends_union (hx : x.In g) (hy : y.In g) (apart : Apart g x y)
    (acrossX : g.Reaches x.input x.output) (acrossY : g.Reaches y.input y.output)
    (run : (x.union y).run g = .ok (z, g')) :
    z = ⟨g.size, g.size + 1⟩ ∧ g'.ends z = (g.ends x).union (g.ends y) := by
  rw [run_union hx hy] at run
  cases run
  refine ⟨rfl, ?_⟩
  obtain ⟨hxi, hxo⟩ := hx
  obtain ⟨hyi, hyo⟩ := hy
  have self := Graph.Reaches.refl g
  have xy := apart.words_eq_zero (self x.input) acrossY
  have yx := apart.symm.words_eq_zero (self y.input) acrossX
  have size₀ : (((g.withAccepting x.output false).withAccepting y.output false).add false).size =
      g.size + 1 := by simp
  have words₀ (p q : Nat) : (((g.withAccepting x.output false).withAccepting y.output false).add
      false).words p q = g.words p q := by simp [Graph.words_add, Graph.words_withAccepting]
  have entry₀ : (((g.withAccepting x.output false).withAccepting y.output false).add
      false).NoEntry g.size := by
    intro p a
    simpa using Graph.noEntry_of_size_le (Nat.le_refl g.size) p a
  generalize ((g.withAccepting x.output false).withAccepting y.output false).add false = g₀ at *
  have words₁ := Graph.words_withEdge_of_noEntry (i := g.size) (j := x.input) (by omega) (by omega)
    (by omega) entry₀
  have entry₁ := entry₀.withEdge (i := g.size) (j := x.input) (by omega) (by omega) (by omega)
    .epsilon
  have size₁ := (Graph.size_withEdge g₀ g.size .epsilon x.input).trans size₀
  generalize g₀.withEdge g.size .epsilon x.input = g₁ at *
  have words₂ := Graph.words_withEdge_of_noEntry (i := g.size) (j := y.input) (by omega) (by omega)
    (by omega) entry₁
  have size₂ := (Graph.size_withEdge g₁ g.size .epsilon y.input).trans size₁
  generalize g₁.withEdge g.size .epsilon y.input = g₂ at *
  have exit₂ : (g₂.add true).NoExit (g.size + 1) := by
    intro a
    simpa using Graph.noExit_of_size_le size₂.le a
  have size₂' : (g₂.add true).size = g.size + 2 := by simp [size₂]
  have words₃ := Graph.words_withEdge_of_noExit (i := x.output) (j := g.size + 1) (by omega)
    (by omega) (by omega) exit₂
  have exit₃ := exit₂.withEdge (i := x.output) (j := g.size + 1) (by omega) (by omega) (by omega)
    .epsilon
  have size₃ := (Graph.size_withEdge (g₂.add true) x.output .epsilon (g.size + 1)).trans size₂'
  generalize (g₂.add true).withEdge x.output .epsilon (g.size + 1) = g₃ at *
  have words₄ := Graph.words_withEdge_of_noExit (i := y.output) (j := g.size + 1) (by omega)
    (by omega) (by omega) exit₃
  simp only [words₃, words₂, words₁, words₀, Graph.words_add] at words₄
  have fromN := Graph.words_of_noExit (Graph.noExit_of_size_le (Nat.le_refl g.size))
  have fromM := Graph.words_of_noExit (Graph.noExit_of_size_le (Nat.le_add_right g.size 1))
  have toN := Graph.words_of_noEntry (Graph.noEntry_of_size_le (Nat.le_refl g.size))
  have toM := Graph.words_of_noEntry (Graph.noEntry_of_size_le (Nat.le_add_right g.size 1))
  simp only [Graph.ends, Ends.union, words₄, fromN, fromM, toN, toM, xy, yx]
  have other {i : Nat} (h : i < g.size) : i ≠ g.size + 1 ∧ g.size + 1 ≠ i := by omega
  simp [-add_eq_sup, hxi.ne, hxo.ne', hyi.ne, hyo.ne', other hxi, other hxo, other hyi, other hyo]

/-!
### Repeating and skipping on any graph

Nothing is asked of the fragment but that its ends are states: they may be one state, have edges in
and out, or be ends of other fragments. The combinators that work on the ends themselves then also
use the runs that were there.
-/

/-- From the input to the output, `plus` repeats the words that were there, and `starFresh` does so
between new ends. `optional` joins runs back to the input with runs from the output, with runs from
the output to the input in between; `star` makes one state of the two ends. -/
theorem words_of_loops (hx : x.In g) :
    (∃ g', x.plus.run g = .ok (x, g') ∧
      g'.words x.input x.output = g.words x.input x.output * (g.words x.input x.output)∗) ∧
    (∃ y g', x.starFresh.run g = .ok (y, g') ∧
      g'.words y.input y.output = (g.words x.input x.output)∗) ∧
    (∃ g', x.optional.run g = .ok (x, g') ∧
      g'.words x.input x.output = g.words x.input x.output +
        g.words x.input x.input * (g.words x.output x.input)∗ * g.words x.output x.output) ∧
    ∃ g', x.star.run g = .ok (x, g') ∧
      g'.words x.input x.output = (g.words x.input x.output + (g.words x.input x.input +
        g.words x.output x.output + g.words x.output x.input))∗ := by
  refine ⟨⟨_, run_plus hx, ?_⟩, ⟨_, _, run_starFresh hx, ?_⟩, ⟨_, run_optional hx, ?_⟩,
    _, run_star hx, ?_⟩
  · exact congrArg Ends.through (ends_plus hx (run_plus hx)).2
  · exact congrArg Ends.through (ends_starFresh hx (run_starFresh hx)).2
  · exact congrArg Ends.through (ends_optional hx (run_optional hx)).2
  · have loop := congrArg Ends.through (ends_star hx (run_star hx)).2
    have parts : (g.ends x).atInput + (g.ends x).through + (g.ends x).back + (g.ends x).atOutput =
        (g.ends x).through + ((g.ends x).atInput + (g.ends x).atOutput + (g.ends x).back) := by
      ac_rfl
    exact loop.trans (congrArg (·∗) parts)

/-- Two states with a loop at each and an edge in each direction. -/
def loopedEnds : Graph :=
  ((((Graph.empty.add false).add true).withEdge 0 (.char 'a') 1).withEdge 1 (.char 'b') 0).withEdge
    0 (.char 'c') 0 |>.withEdge 1 (.char 'd') 1

theorem words_of_loops_loopedEnds : let x : Fragment := ⟨0, 1⟩
    x.In loopedEnds ∧
    (∃ g', x.plus.run loopedEnds = .ok (x, g') ∧
      g'.words 0 1 = loopedEnds.words 0 1 * (loopedEnds.words 0 1)∗) ∧
    (∃ y g', x.starFresh.run loopedEnds = .ok (y, g') ∧
      g'.words y.input y.output = (loopedEnds.words 0 1)∗) ∧
    (∃ g', x.optional.run loopedEnds = .ok (x, g') ∧
      g'.words 0 1 = loopedEnds.words 0 1 +
        loopedEnds.words 0 0 * (loopedEnds.words 1 0)∗ * loopedEnds.words 1 1) ∧
    ∃ g', x.star.run loopedEnds = .ok (x, g') ∧
      g'.words 0 1 = (loopedEnds.words 0 1 + (loopedEnds.words 0 0 + loopedEnds.words 1 1 +
        loopedEnds.words 1 0))∗ := by
  have ends : Fragment.In ⟨0, 1⟩ loopedEnds := ⟨by simp [loopedEnds], by simp [loopedEnds]⟩
  exact ⟨ends, words_of_loops ends⟩

end Fragment

end FiniteAutomata
