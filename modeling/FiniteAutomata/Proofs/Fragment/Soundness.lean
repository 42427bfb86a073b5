import FiniteAutomata.Proofs.Fragment.Behaviour
import FiniteAutomata.Proofs.Graph.Changes

/-!
The invariant of fragments under construction. `Sound` is what the combinators rely on for each of
their operands and promise for their result; `Combined` is what one call does to a graph, and it
leaves every fragment alone that is apart from the operands.
-/

namespace FiniteAutomata.Fragment

variable {g g' : Graph} {x y z : Fragment} {d e : Ends}

/-- A fragment that is ready to be an operand or to be finished. -/
structure Sound (g : Graph) (x : Fragment) (e : Ends) : Prop where
  within : x.In g
  distinct : x.input ≠ x.output
  across : g.Reaches x.input x.output
  onward : ∀ i, g.Reaches x.input i → g.Reaches i x.output
  accepting : ∀ i, g.Reaches x.input i → ((g.state i).accepting ↔ i = x.output)
  starting : ∀ i, g.Reaches x.input i → ¬ (g.state i).starting
  ends : g.ends x = e

/-- What can be reached from a fragment is closed, so its runs are as they were if these states
are. -/
theorem run_iff_of_kept (kept : ∀ i, g.Reaches y.input i → g'.state i = g.state i) {i j : Nat}
    (h : g.Reaches y.input i) {w : List Char} : g'.Run i w j ↔ g.Run i w j :=
  (g.closed_reaches y.input).run_iff kept h

theorem reaches_iff_of_kept (kept : ∀ i, g.Reaches y.input i → g'.state i = g.state i) {i j : Nat}
    (h : g.Reaches y.input i) : g'.Reaches i j ↔ g.Reaches i j :=
  exists_congr fun _ => run_iff_of_kept kept h

theorem Sound.of_kept (ready : Sound g y e) (size_le : g.size ≤ g'.size)
    (kept : ∀ i, g.Reaches y.input i → g'.state i = g.state i) : Sound g' y e := by
  have reach {i j : Nat} := reaches_iff_of_kept kept (i := i) (j := j)
  have start := Graph.Reaches.refl g y.input
  refine ⟨⟨?_, ?_⟩, ready.distinct, ?_, ?_, ?_, ?_, ?_⟩
  · exact ready.within.input_lt.trans_le size_le
  · exact ready.within.output_lt.trans_le size_le
  · exact (reach start).mpr ready.across
  · intro i h
    have h := (reach start).mp h
    exact (reach h).mpr (ready.onward i h)
  · intro i h
    have h := (reach start).mp h
    rw [kept i h, ready.accepting i h]
  · intro i h
    have h := (reach start).mp h
    rw [kept i h]
    exact ready.starting i h
  · have words {i j : Nat} (h : g.Reaches y.input i) : g'.words i j = g.words i j :=
      Set.ext fun w => run_iff_of_kept kept h
    rw [← ready.ends]
    simp only [Graph.ends, words start, words ready.across]

def EndOf (xs : List Fragment) (i : Nat) : Prop := ∃ x ∈ xs, i = x.input ∨ i = x.output

/-- One call turned `g` into `g'`, used up the fragments `xs` and returned `z`. -/
structure Combined (g : Graph) (xs : List Fragment) (z : Fragment) (g' : Graph) : Prop where
  grows : g.Grows (EndOf xs) g'
  within : z.In g'
  distinct : z.input ≠ z.output
  fresh : ∀ i, g.size ≤ i → i < g'.size → i = z.input ∨ i = z.output
  entered : g.size ≤ z.input ∨ ∃ x ∈ xs, z.input = x.input
  across : g'.Reaches z.input z.output
  inward : ∀ x ∈ xs, g'.Reaches z.input x.input
  onward : ∀ x ∈ xs, g'.Reaches x.output z.output
  accepting : ∀ i, (g'.state i).accepting ↔
    i = z.output ∨ (g.state i).accepting ∧ ∀ x ∈ xs, i ≠ x.output

namespace Combined

variable {xs : List Fragment}

/-- The result reaches no old states but those of the operands. -/
theorem covered (c : Combined g xs z g') (sound : ∀ x ∈ xs, ∃ e, Sound g x e) {i : Nat}
    (h : g'.Reaches z.input i) : g.size ≤ i ∨ ∃ x ∈ xs, g.Reaches x.input i := by
  apply Graph.Closed.reaches (g := g') (S := fun i => g.size ≤ i ∨ ∃ x ∈ xs, g.Reaches x.input i)
    _ h
  · rcases c.entered with new | ⟨x, hx, same⟩
    · exact .inl new
    · exact .inr ⟨x, hx, same ▸ .refl g x.input⟩
  · intro i hi a j e
    rcases c.grows.edge i a j e with old | new | ⟨x, hx, same⟩
    · rcases hi with new | ⟨x, hx, reach⟩
      · rw [Graph.noExit_of_size_le new] at old
        simp at old
      · exact .inr ⟨x, hx, reach.tail old⟩
    · exact .inl new
    · obtain ⟨e, ready⟩ := sound x hx
      refine .inr ⟨x, hx, ?_⟩
      rcases same with rfl | rfl
      · exact .refl g x.input
      · exact ready.across

theorem sound (c : Combined g xs z g') (operands : ∀ x ∈ xs, ∃ e, Sound g x e)
    (ends : g'.ends z = e) : Sound g' z e where
  within := c.within
  distinct := c.distinct
  across := c.across
  onward i h := by
    rcases c.covered operands h with new | ⟨x, hx, reach⟩
    · rcases c.fresh i new (h.lt_size c.within.input_lt) with rfl | rfl
      · exact c.across
      · exact .refl g' z.output
    · obtain ⟨e, ready⟩ := operands x hx
      exact ((ready.onward i reach).mono c.grows.sub).trans (c.onward x hx)
  accepting i h := by
    rw [c.accepting]
    refine ⟨?_, .inl⟩
    rintro (last | ⟨flag, other⟩)
    · exact last
    · rcases c.covered operands h with new | ⟨x, hx, reach⟩
      · rw [Graph.state_of_size_le new] at flag
        simp at flag
      · obtain ⟨e, ready⟩ := operands x hx
        exact absurd ((ready.accepting i reach).mp flag) (other x hx)
  starting i h := by
    rw [c.grows.starting]
    rcases c.covered operands h with new | ⟨x, hx, reach⟩
    · rw [Graph.state_of_size_le new]
      simp
    · obtain ⟨e, ready⟩ := operands x hx
      exact ready.starting i reach
  ends := ends

/-- What can be reached from a fragment apart from the operands is as it was. -/
theorem kept_of_apart (c : Combined g xs z g') (operands : ∀ x ∈ xs, ∃ e, Sound g x e)
    (hy : y.In g) (apart : ∀ x ∈ xs, Apart g x y) {i : Nat} (h : g.Reaches y.input i) :
    g'.state i = g.state i := by
  apply c.grows.kept i (h.lt_size hy.input_lt)
  rintro ⟨x, hx, rfl | rfl⟩
  · exact apart x hx _ (.refl g x.input) h
  · obtain ⟨e, ready⟩ := operands x hx
    exact apart x hx _ ready.across h

theorem reaches_iff_of_apart (c : Combined g xs z g') (operands : ∀ x ∈ xs, ∃ e, Sound g x e)
    (hy : y.In g) (apart : ∀ x ∈ xs, Apart g x y) {i j : Nat} (h : g.Reaches y.input i) :
    g'.Reaches i j ↔ g.Reaches i j :=
  reaches_iff_of_kept (fun _ => c.kept_of_apart operands hy apart) h

theorem sound_of_apart (c : Combined g xs z g') (operands : ∀ x ∈ xs, ∃ e, Sound g x e)
    (ready : Sound g y e) (apart : ∀ x ∈ xs, Apart g x y) : Sound g' y e :=
  ready.of_kept c.grows.size_le fun _ => c.kept_of_apart operands ready.within apart

theorem apart_of_apart (c : Combined g xs z g') (operands : ∀ x ∈ xs, ∃ e, Sound g x e)
    (hy : y.In g) (apart : ∀ x ∈ xs, Apart g x y) : Apart g' z y := by
  intro i fromZ fromY
  have fromY := (c.reaches_iff_of_apart operands hy apart (.refl g y.input)).mp fromY
  rcases c.covered operands fromZ with new | ⟨x, hx, reach⟩
  · exact absurd (fromY.lt_size hy.input_lt) (Nat.not_lt_of_le new)
  · exact apart x hx i reach fromY

theorem apart_of_both_apart (c : Combined g xs z g') (operands : ∀ x ∈ xs, ∃ e, Sound g x e)
    {y' : Fragment} (hy : y.In g) (hy' : y'.In g) (apart : ∀ x ∈ xs, Apart g x y)
    (apart' : ∀ x ∈ xs, Apart g x y') (between : Apart g y y') : Apart g' y y' := by
  intro i fromY fromY'
  have fromY := (c.reaches_iff_of_apart operands hy apart (.refl g y.input)).mp fromY
  have fromY' := (c.reaches_iff_of_apart operands hy' apart' (.refl g y'.input)).mp fromY'
  exact between i fromY fromY'

end Combined

end FiniteAutomata.Fragment
