import FiniteAutomata.Proofs.Fragment.Soundness

/-!
Every combinator does what `Combined` says on sound operands that share no state, so its result is
sound with the ends that the combinator gives them.
-/

namespace FiniteAutomata.Fragment

variable {g g' : Graph} {x y z : Fragment} {d e : Ends}

theorem combined_char {c : Char} (run : (Fragment.char c).run g = .ok (z, g')) :
    Combined g [] z g' := by
  rw [run_char] at run
  cases run
  have size : ((g.add false).add true).size = g.size + 2 := by simp
  have target := Graph.mem_targets_withEdge (g := (g.add false).add true) (i := g.size)
    (j := g.size + 1) (by omega) (.char c) (by omega)
  refine ⟨?_, ⟨?_, ?_⟩, ?_, ?_, ?_, ?_, ?_, ?_, ?_⟩
  · apply Graph.Grows.withEdge
    · exact ((Graph.Grows.refl g _).add false).add true
    · exact .inl (Nat.le_refl _)
    · exact .inl (Nat.le_succ _)
  · show g.size < _
    rw [Graph.size_withEdge]
    omega
  · show g.size + 1 < _
    rw [Graph.size_withEdge]
    omega
  · exact (Nat.lt_succ_self _).ne
  · intro i hi lt
    rw [Graph.size_withEdge, size] at lt
    show i = g.size ∨ i = g.size + 1
    omega
  · exact .inl (Nat.le_refl _)
  · exact .edge target
  · simp
  · simp
  · intro i
    have new := Graph.state_of_size_le (g := g) (i := g.size) (Nat.le_refl _)
    simp only [Graph.accepting_withEdge, Graph.accepting_add, Graph.size_add]
    grind

theorem combined_concat (hx : Sound g x d) (hy : Sound g y e) (apart : Apart g x y)
    (run : (x.concat y).run g = .ok (z, g')) : Combined g [x, y] z g' := by
  rw [run_concat hx.within hy.within] at run
  obtain ⟨hxi, hxo⟩ := hx.within
  obtain ⟨hyi, hyo⟩ := hy.within
  have size : ((g.withAccepting x.output false).withAccepting y.output true).size = g.size := by
    simp
  have edge := Graph.mem_targets_withEdge (size ▸ hxo) .epsilon (size ▸ hyi)
  have ofX : EndOf [x, y] x.output := ⟨x, by simp, .inr rfl⟩
  have ofY : EndOf [x, y] y.output := ⟨y, by simp, .inr rfl⟩
  have grows := (((Graph.Grows.refl g (EndOf [x, y])).withAccepting (.inr ofX) false).withAccepting
    (.inr ofY) true).withEdge (.inr ofX) (.inr ⟨y, by simp, .inl rfl⟩) .epsilon
  have onto := (Graph.Reaches.edge edge).trans (hy.across.mono grows.sub)
  cases run
  refine ⟨grows, ⟨?_, ?_⟩, ?_, ?_, ?_, ?_, ?_, ?_, ?_⟩
  · rwa [Graph.size_withEdge, size]
  · rwa [Graph.size_withEdge, size]
  · exact fun same => apart y.output (same ▸ .refl g x.input) hy.across
  · intro i hi lt
    rw [Graph.size_withEdge, size] at lt
    exact absurd lt (Nat.not_lt_of_le hi)
  · exact .inr ⟨x, by simp, rfl⟩
  · exact (hx.across.mono grows.sub).trans onto
  · intro z hz
    rcases List.mem_pair.mp hz with rfl | rfl
    · exact .refl _ _
    · exact (hx.across.mono grows.sub).trans (.edge edge)
  · intro z hz
    rcases List.mem_pair.mp hz with rfl | rfl
    · exact onto
    · exact .refl _ _
  · intro i
    rw [Graph.accepting_withEdge, Graph.accepting_withAccepting (by simpa),
      Graph.accepting_withAccepting hxo]
    simp
    grind

theorem combined_union (hx : Sound g x d) (hy : Sound g y e)
    (run : (x.union y).run g = .ok (z, g')) : Combined g [x, y] z g' := by
  rw [run_union hx.within hy.within] at run
  obtain ⟨hxi, hxo⟩ := hx.within
  obtain ⟨hyi, hyo⟩ := hy.within
  have ofX : EndOf [x, y] x.output := ⟨x, by simp, .inr rfl⟩
  have ofY : EndOf [x, y] y.output := ⟨y, by simp, .inr rfl⟩
  have new : g.size ≤ g.size + 1 := Nat.le_succ _
  have grows := ((((((((Graph.Grows.refl g (EndOf [x, y])).withAccepting (.inr ofX)
    false).withAccepting (.inr ofY) false).add false).withEdge (.inl le_rfl)
    (.inr ⟨x, by simp, .inl rfl⟩) .epsilon).withEdge (.inl le_rfl) (.inr ⟨y, by simp, .inl rfl⟩)
    .epsilon).add true).withEdge (.inr ofX) (.inl new) .epsilon).withEdge (.inr ofY) (.inl new)
    .epsilon
  obtain ⟨rfl, rfl⟩ := Prod.mk.inj (Except.ok.inj run)
  clear run
  generalize total : Graph.withEdge _ _ _ _ = g' at grows ⊢
  have size : g'.size = g.size + 2 := by simp [← total]
  have intoX : x.input ∈ g'.targets g.size .epsilon := by
    simp [← total, Graph.mem_targets_withEdge_iff]
    omega
  have intoY : y.input ∈ g'.targets g.size .epsilon := by
    simp [← total, Graph.mem_targets_withEdge_iff]
    omega
  have fromX : g.size + 1 ∈ g'.targets x.output .epsilon := by
    simp [← total, Graph.mem_targets_withEdge_iff]
    omega
  have fromY : g.size + 1 ∈ g'.targets y.output .epsilon := by
    simp [← total, Graph.mem_targets_withEdge_iff]
    omega
  refine ⟨grows, ⟨?_, ?_⟩, ?_, ?_, ?_, ?_, ?_, ?_, ?_⟩
  · show g.size < _
    omega
  · show g.size + 1 < _
    omega
  · exact (Nat.lt_succ_self _).ne
  · intro i hi lt
    show i = g.size ∨ i = g.size + 1
    omega
  · exact .inl (Nat.le_refl _)
  · exact (Graph.Reaches.edge intoX).trans ((hx.across.mono grows.sub).trans (.edge fromX))
  · intro z hz
    rcases List.mem_pair.mp hz with rfl | rfl
    · exact .edge intoX
    · exact .edge intoY
  · intro z hz
    rcases List.mem_pair.mp hz with rfl | rfl
    · exact .edge fromX
    · exact .edge fromY
  · intro i
    have beyond := Graph.state_of_size_le (g := g) (Nat.le_refl _)
    rw [← total]
    simp only [Graph.accepting_withEdge, Graph.accepting_add, Graph.size_add, Graph.size_withEdge,
      Graph.size_withAccepting]
    rw [Graph.accepting_withAccepting (by simpa), Graph.accepting_withAccepting hxo]
    simp
    grind

/-- Edges between the ends of a sound fragment. -/
theorem combined_inPlace (hx : Sound g x e) (grows : g.Grows (EndOf [x]) g')
    (size : g'.size = g.size)
    (same : ∀ i, (g'.state i).accepting = (g.state i).accepting) : Combined g [x] x g' where
  grows := grows
  within := ⟨size ▸ hx.within.input_lt, size ▸ hx.within.output_lt⟩
  distinct := hx.distinct
  fresh i hi lt := absurd lt (size ▸ Nat.not_lt_of_le hi)
  entered := .inr ⟨x, by simp, rfl⟩
  across := hx.across.mono grows.sub
  inward z hz := by
    obtain rfl := List.mem_singleton.mp hz
    exact .refl g' z.input
  onward z hz := by
    obtain rfl := List.mem_singleton.mp hz
    exact .refl g' z.output
  accepting i := by
    have last := (hx.accepting x.output hx.across).mpr rfl
    rw [same]
    constructor
    · intro flag
      by_cases out : i = x.output
      · exact .inl out
      · exact .inr ⟨flag, by simpa using out⟩
    · rintro (rfl | ⟨flag, -⟩)
      · exact last
      · exact flag

theorem input_endOf (x : Fragment) : EndOf [x] x.input := ⟨x, by simp, .inl rfl⟩

theorem output_endOf (x : Fragment) : EndOf [x] x.output := ⟨x, by simp, .inr rfl⟩

theorem combined_optional (hx : Sound g x e) (run : x.optional.run g = .ok (z, g')) :
    Combined g [x] z g' := by
  rw [run_optional hx.within] at run
  cases run
  apply combined_inPlace hx
  · exact (Graph.Grows.refl g _).withEdge (.inr (input_endOf x)) (.inr (output_endOf x)) .epsilon
  · simp
  · simp

theorem combined_plus (hx : Sound g x e) (run : x.plus.run g = .ok (z, g')) :
    Combined g [x] z g' := by
  rw [run_plus hx.within] at run
  cases run
  apply combined_inPlace hx
  · exact (Graph.Grows.refl g _).withEdge (.inr (output_endOf x)) (.inr (input_endOf x)) .epsilon
  · simp
  · simp

theorem combined_star (hx : Sound g x e) (run : x.star.run g = .ok (z, g')) :
    Combined g [x] z g' := by
  rw [run_star hx.within] at run
  cases run
  have back := (Graph.Grows.refl g _).withEdge (.inr (output_endOf x)) (.inr (input_endOf x))
    .epsilon
  apply combined_inPlace hx
  · exact back.withEdge (.inr (input_endOf x)) (.inr (output_endOf x)) .epsilon
  · simp
  · simp

theorem combined_starFresh (hx : Sound g x e) (run : x.starFresh.run g = .ok (z, g')) :
    Combined g [x] z g' := by
  rw [run_starFresh hx.within] at run
  obtain ⟨hi, ho⟩ := hx.within
  have new : g.size ≤ g.size + 1 := Nat.le_succ _
  have grows := (((((((Graph.Grows.refl g (EndOf [x])).withAccepting (.inr (output_endOf x))
    false).add false).add true).withEdge (.inl le_rfl) (.inr (input_endOf x)) .epsilon).withEdge
    (.inr (output_endOf x)) (.inl new) .epsilon).withEdge (.inl le_rfl) (.inl new)
    .epsilon).withEdge (.inl new) (.inr (input_endOf x)) .epsilon
  obtain ⟨rfl, rfl⟩ := Prod.mk.inj (Except.ok.inj run)
  clear run
  generalize total : Graph.withEdge _ _ _ _ = g' at grows ⊢
  have size : g'.size = g.size + 2 := by simp [← total]
  have skip : g.size + 1 ∈ g'.targets g.size .epsilon := by
    rw [← total]
    apply Graph.mem_targets_withEdge_iff.mpr ∘ .inl
    apply Graph.mem_targets_withEdge
    all_goals
      simp only [Graph.size_withEdge, Graph.size_add, Graph.size_withAccepting]
      omega
  have intoX : x.input ∈ g'.targets g.size .epsilon := by
    simp [← total, Graph.mem_targets_withEdge_iff]
    omega
  have fromX : g.size + 1 ∈ g'.targets x.output .epsilon := by
    simp [← total, Graph.mem_targets_withEdge_iff]
    omega
  refine ⟨grows, ⟨?_, ?_⟩, ?_, ?_, ?_, ?_, ?_, ?_, ?_⟩
  · show g.size < _
    omega
  · show g.size + 1 < _
    omega
  · exact (Nat.lt_succ_self _).ne
  · intro i hi lt
    show i = g.size ∨ i = g.size + 1
    omega
  · exact .inl (Nat.le_refl _)
  · exact .edge skip
  · intro z hz
    obtain rfl := List.mem_singleton.mp hz
    exact .edge intoX
  · intro z hz
    obtain rfl := List.mem_singleton.mp hz
    exact .edge fromX
  · intro i
    have beyond := Graph.state_of_size_le (g := g) (Nat.le_refl _)
    rw [← total]
    simp only [Graph.accepting_withEdge, Graph.accepting_add, Graph.size_add,
      Graph.size_withAccepting]
    rw [Graph.accepting_withAccepting ho]
    simp
    grind

end FiniteAutomata.Fragment
