import FiniteAutomata.Fragment.Random
import FiniteAutomata.Proofs.Fragment.Invariant
import FiniteAutomata.Proofs.Fragment.Planting
import FiniteAutomata.Proofs.RandomSource

/-!
Random fragments from every stream of words. Whatever is drawn, the construction returns; it leaves
the states alone that were there before, and all states that it adds lie on the way from the input
of its fragment to the output.
-/

namespace FiniteAutomata

namespace RandomBuild

variable {α β : Type} {g : Graph} {post : β → Graph → Prop}

/-- From every random source the construction returns, with a result and a graph as described. -/
def Returns (b : RandomBuild α) (g : Graph) (post : α → Graph → Prop) : Prop :=
  ∀ s, ∃ z s' g', (b.run s).run g = .ok ((z, s'), g') ∧ post z g'

theorem Returns.bind {b : RandomBuild α} {f : α → RandomBuild β} {middle : α → Graph → Prop}
    (first : b.Returns g middle) (rest : ∀ y g₁, middle y g₁ → (f y).Returns g₁ post) :
    (b >>= f).Returns g post := by
  intro s
  obtain ⟨y, s₁, g₁, run₁, holds₁⟩ := first s
  obtain ⟨z, s', g', run', holds⟩ := rest y g₁ holds₁ s₁
  refine ⟨z, s', g', ?_, holds⟩
  rw [StateT.run_bind, StateT.run_bind, run₁]
  exact run'

theorem returns_draw_bind {d : Draw α} {f : α → RandomBuild β} {P : α → Prop}
    (draws : ∀ s, ∃ y s', d.run s = .ok (y, s') ∧ P y) (rest : ∀ y, P y → (f y).Returns g post) :
    ((liftM d : RandomBuild α) >>= f).Returns g post := by
  have drawn : (liftM d : RandomBuild α).Returns g fun y g₁ => P y ∧ g₁ = g := fun s => by
    obtain ⟨y, s', run, holds⟩ := draws s
    refine ⟨y, s', g, ?_, holds, rfl⟩
    show (d.run s).bind _ = _
    rw [run]
    rfl
  apply drawn.bind
  rintro y _ ⟨holds, rfl⟩
  exact rest y holds

theorem returns_build {b : Build β} (made : ∃ z g', b.run g = .ok (z, g') ∧ post z g') :
    (liftM b : RandomBuild β).Returns g post := by
  intro s
  obtain ⟨z, g', run, holds⟩ := made
  refine ⟨z, s, g', ?_, holds⟩
  show (b.run g).bind _ = _
  rw [run]
  rfl

end RandomBuild

def Symbol.Over (alphabet : List Char) (a : Symbol) : Prop :=
  a = .epsilon ∨ ∃ c ∈ alphabet, a = .char c

theorem over_epsilon (alphabet : List Char) : ∀ a ∈ [Symbol.epsilon], a.Over alphabet :=
  List.forall_mem_singleton.mpr (.inl rfl)

/-- All edges of the states from the number `n` on are on the given symbols. -/
def Graph.EdgesFrom (n : Nat) (symbols : Symbol → Prop) (g : Graph) : Prop :=
  ∀ i a j, n ≤ i → j ∈ g.targets i a → symbols a

theorem Graph.stable_edgesFrom (n : Nat) (symbols : Symbol → Prop) :
    Build.Stable symbols (EdgesFrom n symbols) where
  add g accepting label holds i a j le edge := by
    rw [targets_add] at edge
    exact holds i a j le edge
  withAccepting g i accepting holds k a j le edge := by
    rw [targets_withAccepting] at edge
    exact holds k a j le edge
  withEdge g i a j fit holds k b l le edge := by
    rcases mem_targets_withEdge_iff.mp edge with old | ⟨-, -, rfl, -⟩
    · exact holds k b l le old
    · exact fit

namespace Fragment

open RandomBuild

variable {alphabet : List Char} {g g₁ g₂ : Graph} {room : Nat} {xs ys : List Fragment}
  {x y z : Fragment}

/-! ### What calls add -/

/-- The fragments `xs` over the alphabet were planted on at most `room` states. -/
structure Grown (alphabet : List Char) (g : Graph) (room : Nat) (xs : List Fragment) (g' : Graph) :
    Prop where
  planted : Planted g xs g'
  size_le : g'.size ≤ g.size + room
  symbols : g'.EdgesFrom g.size (Symbol.Over alphabet)

namespace Grown

theorem mono (grown : Grown alphabet g room xs g₁) {room' : Nat} (le : room ≤ room') :
    Grown alphabet g room' xs g₁ :=
  { grown with size_le := grown.size_le.trans (Nat.add_le_add_left le _) }

theorem append {room' : Nat} (first : Grown alphabet g room xs g₁)
    (second : Grown alphabet g₁ room' ys g₂) : Grown alphabet g (room + room') (xs ++ ys) g₂ where
  planted := first.planted.append second.planted
  size_le := by
    have := first.size_le
    have := second.size_le
    omega
  symbols i a j le edge := by
    rcases Nat.lt_or_ge i g₁.size with old | new
    · rw [Graph.targets, second.planted.kept i old] at edge
      exact first.symbols i a j le edge
    · exact second.symbols i a j new edge

protected theorem none (g : Graph) : Grown alphabet g 0 [] g where
  planted := .none g
  size_le := Nat.le_refl _
  symbols i a j le edge := by
    rw [Graph.noExit_of_size_le le] at edge
    cases edge

/-- A call that returns from the graph uses up the fragments planted there. -/
theorem call (grown : Grown alphabet g room xs g₁) {c : Combination Fragment} {b : Build Fragment}
    (built : c.build = .ok b) (fit : ∀ a ∈ c.symbols, a.Over alphabet)
    (result : b.run g₁ = .ok (z, g₂)) (combined : Combined g₁ xs z g₂) :
    Grown alphabet g (room + 2) [z] g₂ where
  planted := grown.planted.combine combined
  size_le := by
    have := grown.size_le
    have := combined.size_le_add_two
    omega
  symbols := Combination.keeps_build (Graph.stable_edgesFrom g.size _) fit built grown.symbols result

end Grown

/-! ### Every draw -/

/-- How many states a fragment of some depth may need. -/
def roomAt (depth : Nat) : Nat := 2 ^ (depth + 2) - 2

theorem roomAt_succ (depth : Nat) : roomAt (depth + 1) = roomAt depth + roomAt depth + 2 := by
  have := Nat.one_le_two_pow (n := depth)
  simp only [roomAt, Nat.pow_succ]
  omega

/-- The construction draws fragments of some depth from every graph. -/
def Draws (alphabet : List Char) (depth : Nat) (b : RandomBuild Fragment) : Prop :=
  ∀ g, b.Returns g fun z g' => Grown alphabet g (roomAt depth) [z] g'

namespace Draws

variable {depth : Nat} {b : RandomBuild Fragment}

theorem unary (operand : Draws alphabet depth b) (c : Fragment → Combination Fragment)
    {f : Fragment → Build Fragment} (built : ∀ x, (c x).build = .ok (f x))
    (silent : ∀ x, (c x).symbols = [.epsilon])
    (run : ∀ {x g}, x.In g → ∃ r, (f x).run g = .ok r)
    (combined : ∀ {x z e g g'}, Sound g x e → (f x).run g = .ok (z, g') → Combined g [x] z g') :
    Draws alphabet (depth + 1) (b >>= fun x => f x) := fun g => by
  refine (operand g).bind fun x g₁ grown => returns_build ?_
  obtain ⟨e, hx⟩ := List.forall_mem_singleton.mp grown.planted.sound
  obtain ⟨⟨z, g'⟩, result⟩ := run hx.within
  refine ⟨z, g', result, (grown.call (built x) ?_ result (combined hx result)).mono ?_⟩
  · exact silent x ▸ over_epsilon alphabet
  · rw [roomAt_succ]
    omega

theorem binary (operand : Draws alphabet depth b) (c : Fragment → Fragment → Combination Fragment)
    {f : Fragment → Fragment → Build Fragment} (built : ∀ x y, (c x y).build = .ok (f x y))
    (silent : ∀ x y, (c x y).symbols = [.epsilon])
    (run : ∀ {x y g}, x.In g → y.In g → ∃ r, (f x y).run g = .ok r)
    (combined : ∀ {x y z d e g g'}, Sound g x d → Sound g y e → Apart g x y →
      (f x y).run g = .ok (z, g') → Combined g [x, y] z g') :
    Draws alphabet (depth + 1) (b >>= fun x => b >>= fun y => f x y) := fun g => by
  refine (operand g).bind fun x g₁ first => (operand g₁).bind fun y g₂ second => returns_build ?_
  have grown := first.append second
  have apart := List.pairwise_pair.mp grown.planted.apart
  obtain ⟨d, hx⟩ := grown.planted.sound x (by simp)
  obtain ⟨e, hy⟩ := grown.planted.sound y (by simp)
  obtain ⟨⟨z, g'⟩, result⟩ := run hx.within hy.within
  refine ⟨z, g', result, (grown.call (built x y) ?_ result (combined hx hy apart result)).mono ?_⟩
  · exact silent x y ▸ over_epsilon alphabet
  · rw [roomAt_succ]

theorem drawChar (nonempty : alphabet ≠ []) (depth : Nat) :
    Draws alphabet depth (drawChar alphabet) := fun g => by
  refine returns_draw_bind (Draw.exists_run_symbol nonempty) fun a ha => returns_build ?_
  have result := run_char a g
  refine ⟨_, _, result, ((Grown.none g).call (c := .char a) rfl ?_ result
    (combined_char result)).mono ?_⟩
  · exact List.forall_mem_singleton.mpr (.inr ⟨a, ha, rfl⟩)
  · have := Nat.one_le_two_pow (n := depth)
    simp only [roomAt, Nat.pow_succ]
    omega

-- The induction is on the depth and the cases are the numbers drawn, in the order of the branches.
theorem draw (nonempty : alphabet ≠ []) (depth : Nat) :
    Draws alphabet depth (draw alphabet depth) := by
  induction depth with
  | zero => exact drawChar nonempty 0
  | succ depth ih =>
    refine fun g => returns_draw_bind (P := fun _ => True) (fun s => ?_) fun k _ => ?_
    · obtain ⟨k, s', run, -⟩ := Draw.exists_run_below (n := 7) (by decide) s
      exact ⟨k, s', run, trivial⟩
    · revert g
      split
      · exact drawChar nonempty (depth + 1)
      · exact ih.binary .concat (fun _ _ => rfl) (fun _ _ => rfl) (⟨_, run_concat · ·⟩)
          combined_concat
      · exact ih.binary .union (fun _ _ => rfl) (fun _ _ => rfl) (⟨_, run_union · ·⟩)
          fun hx hy _ => combined_union hx hy
      · exact ih.unary .optional (fun _ => rfl) (fun _ => rfl) (⟨_, run_optional ·⟩)
          combined_optional
      · exact ih.unary .plus (fun _ => rfl) (fun _ => rfl) (⟨_, run_plus ·⟩) combined_plus
      · exact ih.unary .star (fun _ => rfl) (fun _ => rfl) (⟨_, run_star ·⟩) combined_star
      · exact ih.unary .starFresh (fun _ => rfl) (fun _ => rfl) (⟨_, run_starFresh ·⟩)
          combined_starFresh

end Draws

/-- From every source and every graph, a random fragment over an alphabet that is not empty is made
from numbers below their bounds, and none of the states that were there before is changed. The states
that are added are at most as many as there is room for, have edges without a character and on
characters of the alphabet, and lie on the way from the input to the output, which alone accepts. -/
theorem exists_random (nonempty : alphabet ≠ []) (depth : Nat) (g : Graph) (s : RandomSource) :
    (∀ n, 0 < n → n ≤ UInt32.size → ∀ t : RandomSource, ∃ k t',
      (Draw.below n).run t = .ok (k, t') ∧ k.val = t.scaled n ∧ t.scaled n < n) ∧
    ∃ x s' g', ((random alphabet depth).run s).run g = .ok ((x, s'), g') ∧
      g.size ≤ g'.size ∧ (∀ i < g.size, g'.state i = g.state i) ∧
      g'.size ≤ g.size + (2 ^ (depth + 2) - 2) ∧
      (∀ i a j, g.size ≤ i → j ∈ g'.targets i a → a = .epsilon ∨ ∃ c ∈ alphabet, a = .char c) ∧
      (g.size ≤ x.input ∧ x.input < g'.size) ∧ (g.size ≤ x.output ∧ x.output < g'.size) ∧
      ∀ i, g.size ≤ i → i < g'.size → g'.Reaches x.input i ∧ g'.Reaches i x.output ∧
        ((g'.state i).accepting = true ↔ i = x.output) := by
  refine ⟨fun n pos fits t => ?_, ?_⟩
  · obtain ⟨k, t', run, scaled⟩ := Draw.exists_run_below pos t
    exact ⟨k, t', run, scaled fits, scaled fits ▸ k.isLt⟩
  · obtain ⟨x, s', g', run, planted, size_le, symbols⟩ := Draws.draw nonempty depth g s
    obtain ⟨e, ready⟩ := planted.sound x (List.mem_singleton_self x)
    have reached {i : Nat} : g'.Reaches x.input i ↔ g.size ≤ i ∧ i < g'.size := by
      simpa using planted.reached i
    refine ⟨x, s', g', ?_, planted.size_le, planted.kept, size_le, symbols, ?_, ?_, ?_⟩
    · rwa [random, if_neg (by simpa using nonempty)]
    · exact reached.mp (.refl g' x.input)
    · exact reached.mp ready.across
    · intro i le lt
      have way := reached.mpr ⟨le, lt⟩
      exact ⟨way, ready.onward i way, ready.accepting i way⟩

/-- The largest words, behind a state that is there already. -/
theorem exists_random_largest : ['a', 'b'] ≠ [] ∧ ∃ x s' g',
    ((random ['a', 'b'] 2).run ⟨fun _ => 4294967295, 0⟩).run (Graph.empty.add true) =
      .ok ((x, s'), g') ∧
    g'.state 0 = { accepting := true } ∧ g'.size ≤ 15 ∧
    ∀ i, 1 ≤ i → i < g'.size → g'.Reaches x.input i ∧ g'.Reaches i x.output ∧
      ((g'.state i).accepting = true ↔ i = x.output) := by
  have nonempty : ['a', 'b'] ≠ [] := by decide
  obtain ⟨-, x, s', g', run, -, kept, size_le, -, -, -, added⟩ :=
    exists_random nonempty 2 (Graph.empty.add true) ⟨fun _ => 4294967295, 0⟩
  exact ⟨nonempty, x, s', g', run, kept 0 (by decide), size_le, added⟩

end Fragment

end FiniteAutomata
