import FiniteAutomata.Nfa.Basic
import FiniteAutomata.Proofs.Fragment.Calls
import Mathlib.Data.List.Perm.Basic

/-!
Automata assembled by calls of combinators on one graph, in any order and with any number of
fragments side by side, as long as no fragment is an operand twice. The fragments that are still
unused are sound and share no state (`Assembly.live`), so the automaton finished from one of them
accepts the words between its ends.
-/

namespace FiniteAutomata

open scoped Computability

/-- A call of a combinator with its operands. -/
inductive Combination (α : Type) where
  | char (c : Char)
  | concat (x y : α)
  | union (x y : α)
  | optional (x : α)
  | plus (x : α)
  | star (x : α)
  | starFresh (x : α)
  | concatAll (x : α) (xs : List α)
  | unionAll (x : α) (xs : List α)

namespace Combination

variable {α β : Type}

def operands : Combination α → List α
  | char _ => []
  | concat x y | union x y => [x, y]
  | optional x | plus x | star x | starFresh x => [x]
  | concatAll x xs | unionAll x xs => x :: xs

def map (f : α → β) : Combination α → Combination β
  | char c => char c
  | concat x y => concat (f x) (f y)
  | union x y => union (f x) (f y)
  | optional x => optional (f x)
  | plus x => plus (f x)
  | star x => star (f x)
  | starFresh x => starFresh (f x)
  | concatAll x xs => concatAll (f x) (xs.map f)
  | unionAll x xs => unionAll (f x) (xs.map f)

def build : Combination Fragment → Except AutomatonError (Build Fragment)
  | char c => .ok (Fragment.char c)
  | concat x y => .ok (x.concat y)
  | union x y => .ok (x.union y)
  | optional x => .ok x.optional
  | plus x => .ok x.plus
  | star x => .ok x.star
  | starFresh x => .ok x.starFresh
  | concatAll x xs => Fragment.concatAll (x :: xs)
  | unionAll x xs => Fragment.unionAll (x :: xs)

def pattern : Combination Pattern → Pattern
  | char c => .char c
  | concat p q => .concat p q
  | union p q => .union p q
  | optional p => .optional p
  | plus p => .plus p
  | star p => .star p
  | starFresh p => .starFresh p
  | concatAll p ps => .concatAll p ps
  | unionAll p ps => .unionAll p ps

end Combination

/-- A fragment with the pattern that its calls spell out. -/
structure Part where
  fragment : Fragment
  pattern : Pattern

namespace Combination

/-- What the calls before this one and this one spell out. -/
def spelled (c : Combination Part) : Pattern := (c.map Part.pattern).pattern

end Combination

/-- The calls that led from one graph to another, with the parts that no call has used yet. Every
call is on unused parts and is one of the `allowed` ones. -/
inductive Assembly (allowed : Graph → Combination Part → Prop) (g₀ : Graph) :
    Graph → List Part → Prop where
  | start : Assembly allowed g₀ g₀ []
  | call {g g' : Graph} {parts rest : List Part} {c : Combination Part} {builder : Build Fragment}
      {x : Fragment} (before : Assembly allowed g₀ g parts)
      (unused : parts.Perm (c.operands ++ rest)) (fit : allowed g c)
      (built : (c.map Part.fragment).build = .ok builder) (run : builder.run g = .ok (x, g')) :
      Assembly allowed g₀ g' (⟨x, c.spelled⟩ :: rest)

/-! ### The invariant -/

/-- Fragments side by side: every one is sound, and no two of them share a state. -/
structure Live (g : Graph) (parts : List Part) : Prop where
  sound : ∀ p ∈ parts, p.fragment.Sound g p.pattern.ends
  apart : parts.Pairwise fun p q => p.fragment.Apart g q.fragment

namespace Live

variable {g : Graph} {p q : Part} {parts rest : List Part}

theorem perm (live : Live g parts) {parts' : List Part} (perm : parts.Perm parts') :
    Live g parts' where
  sound p hp := live.sound p (perm.mem_iff.mpr hp)
  apart := (perm.pairwise_iff Fragment.Apart.symm).mp live.apart

/-- The result of a call takes the place of its operands, and the other parts stay. -/
theorem combined (used : List Part) {g' : Graph} {z : Fragment} {r : Pattern}
    (live : Live g (used ++ rest)) (c : Fragment.Combined g (used.map Part.fragment) z g')
    (ends : g'.ends z = r.ends) : Live g' (⟨z, r⟩ :: rest) := by
  obtain ⟨sound, apart⟩ := live
  obtain ⟨-, between, across⟩ := List.pairwise_append.mp apart
  have operands : ∀ x ∈ used.map Part.fragment, ∃ e, x.Sound g e := by
    intro x hx
    obtain ⟨p, hp, rfl⟩ := List.mem_map.mp hx
    exact ⟨_, sound p (List.mem_append_left _ hp)⟩
  have others (p : Part) (hp : p ∈ rest) : p.fragment.Sound g p.pattern.ends :=
    sound p (List.mem_append_right _ hp)
  have away (p : Part) (hp : p ∈ rest) : ∀ x ∈ used.map Part.fragment, x.Apart g p.fragment := by
    intro x hx
    obtain ⟨q, hq, rfl⟩ := List.mem_map.mp hx
    exact across q hq p hp
  constructor
  · intro p hp
    rcases List.mem_cons.mp hp with rfl | hp
    · exact c.sound operands ends
    · exact c.sound_of_apart operands (others p hp) (away p hp)
  · apply List.Pairwise.cons
    · intro p hp
      exact c.apart_of_apart operands (others p hp).within (away p hp)
    · apply between.imp_of_mem
      intro p q hp hq apart
      exact c.apart_of_both_apart operands (others p hp).within (others q hq).within (away p hp)
        (away q hq) apart

theorem head (live : Live g (p :: rest)) : p.fragment.Sound g p.pattern.ends :=
  live.sound p List.mem_cons_self

theorem second (live : Live g (p :: q :: rest)) : q.fragment.Sound g q.pattern.ends :=
  live.sound q (by simp)

theorem head_apart (live : Live g (p :: q :: rest)) : p.fragment.Apart g q.fragment :=
  (List.pairwise_cons.mp live.apart).1 q List.mem_cons_self

/-- The builder runs on the live parts and its result takes the place of the used ones. -/
def Step (g : Graph) (builder : Build Fragment) (r : Pattern) (rest : List Part) : Prop :=
  ∃ z g', builder.run g = .ok (z, g') ∧ Live g' (⟨z, r⟩ :: rest)

theorem concat (live : Live g (p :: q :: rest)) :
    Step g (p.fragment.concat q.fragment) (.concat p.pattern q.pattern) rest := by
  have hp := live.head
  have hq := live.second
  have run := Fragment.run_concat hp.within hq.within
  have ends := Fragment.ends_concat hp.within hq.within live.head_apart hp.across hq.across run
  refine ⟨_, _, run, live.combined [p, q] ?_ ?_⟩
  · exact Fragment.combined_concat hp hq live.head_apart run
  · rw [ends.2, hp.ends, hq.ends]
    rfl

theorem union (live : Live g (p :: q :: rest)) :
    Step g (p.fragment.union q.fragment) (.union p.pattern q.pattern) rest := by
  have hp := live.head
  have hq := live.second
  have run := Fragment.run_union hp.within hq.within
  have ends := Fragment.ends_union hp.within hq.within live.head_apart hp.across hq.across run
  refine ⟨_, _, run, live.combined [p, q] ?_ ?_⟩
  · exact Fragment.combined_union hp hq run
  · rw [ends.2, hp.ends, hq.ends]
    rfl

theorem foldlM {f : Fragment → Fragment → Build Fragment} {op : Pattern → Pattern → Pattern}
    (step : ∀ {g p q rest}, Live g (p :: q :: rest) →
      Step g (f p.fragment q.fragment) (op p.pattern q.pattern) rest)
    {qs : List Part} (live : Live g (p :: qs ++ rest)) :
    Step g ((qs.map Part.fragment).foldlM f p.fragment)
      ((qs.map Part.pattern).foldl op p.pattern) rest := by
  induction qs generalizing g p with
  | nil => exact ⟨p.fragment, g, rfl, live⟩
  | cons q qs ih =>
    obtain ⟨z, g₁, first, live₁⟩ := step live
    obtain ⟨z', g', others, live'⟩ := ih live₁
    refine ⟨z', g', ?_, live'⟩
    rw [List.map_cons, List.foldlM_cons, StateT.run_bind, first]
    exact others

/-- Every call on live parts returns a fragment. -/
theorem call {c : Combination Part} (live : Live g (c.operands ++ rest)) :
    ∃ builder, (c.map Part.fragment).build = .ok builder ∧ Step g builder c.spelled rest := by
  cases c with
  | char a =>
    have run := Fragment.run_char a g
    refine ⟨_, rfl, _, _, run, live.combined [] ?_ ?_⟩
    · exact Fragment.combined_char run
    · exact (Fragment.ends_char run).2
  | concat p q => exact ⟨_, rfl, live.concat⟩
  | union p q => exact ⟨_, rfl, live.union⟩
  | optional p =>
    have run := Fragment.run_optional live.head.within
    refine ⟨_, rfl, _, _, run, live.combined [p] ?_ ?_⟩
    · exact Fragment.combined_optional live.head run
    · rw [(Fragment.ends_optional live.head.within run).2, live.head.ends]
      rfl
  | plus p =>
    have run := Fragment.run_plus live.head.within
    refine ⟨_, rfl, _, _, run, live.combined [p] ?_ ?_⟩
    · exact Fragment.combined_plus live.head run
    · rw [(Fragment.ends_plus live.head.within run).2, live.head.ends]
      rfl
  | star p =>
    have run := Fragment.run_star live.head.within
    refine ⟨_, rfl, _, _, run, live.combined [p] ?_ ?_⟩
    · exact Fragment.combined_star live.head run
    · rw [(Fragment.ends_star live.head.within run).2, live.head.ends]
      rfl
  | starFresh p =>
    have run := Fragment.run_starFresh live.head.within
    refine ⟨_, rfl, _, _, run, live.combined [p] ?_ ?_⟩
    · exact Fragment.combined_starFresh live.head run
    · rw [(Fragment.ends_starFresh live.head.within run).2, live.head.ends]
      rfl
  | concatAll p ps => exact ⟨_, rfl, foldlM concat live⟩
  | unionAll p ps => exact ⟨_, rfl, foldlM union live⟩

end Live

namespace Assembly

variable {allowed : Graph → Combination Part → Prop} {g₀ g : Graph} {parts rest : List Part}

theorem live (made : Assembly allowed g₀ g parts) : Live g parts := by
  induction made with
  | start => exact ⟨by simp, List.Pairwise.nil⟩
  | call before unused fit built run ih =>
    obtain ⟨builder, built', z, g', run', live⟩ := (ih.perm unused).call
    rw [built] at built'
    cases built'
    rw [run] at run'
    cases run'
    exact live

theorem exists_call (made : Assembly allowed g₀ g parts) {c : Combination Part}
    (unused : parts.Perm (c.operands ++ rest)) (fit : allowed g c) :
    ∃ z g', Assembly allowed g₀ g' (⟨z, c.spelled⟩ :: rest) := by
  obtain ⟨builder, built, z, g', run, -⟩ := (made.live.perm unused).call
  exact ⟨z, g', made.call unused fit built run⟩

end Assembly

end FiniteAutomata
