import FiniteAutomata.Proofs.Fragment.Denotation
import FiniteAutomata.Proofs.Fragment.Scripts

/-!
Fragments side by side. However calls are interleaved, the fragments that no call has used yet share
no state, and each is trim: all its states lie on the way from its input to its output, which alone
accepts. No state starts before a construction is finished, so the finished automaton starts in its
input alone and accepts in its output alone.
-/

namespace FiniteAutomata

/-! ### What calls never change -/

/-- The symbols of the edges that a call adds. -/
def Combination.symbols {α : Type} : Combination α → List Symbol
  | char c => [.char c]
  | concat .. | union .. | optional _ | plus _ | star _ | starFresh _ | concatAll .. | unionAll .. =>
    [.epsilon]

/-- The changes that combinators make, with edges on the given symbols. -/
def Change.Builds (symbols : Symbol → Prop) : Change → Prop
  | .add .. | .setAccepting .. => True
  | .connect _ a _ => symbols a
  | .setStarting .. | .setLabel .. => False

/-- A property of graphs that none of these changes takes away. -/
structure Build.Stable (symbols : Symbol → Prop) (P : Graph → Prop) : Prop where
  add : ∀ g accepting label, P g → P (g.add accepting label)
  withAccepting : ∀ g i accepting, P g → P (g.withAccepting i accepting)
  withEdge : ∀ g i a j, symbols a → P g → P (g.withEdge i a j)

variable {symbols : Symbol → Prop} {P : Graph → Prop}

theorem Build.Stable.perform (stable : Build.Stable symbols P) {changes : List Change}
    (builds : ∀ c ∈ changes, c.Builds symbols) {g g' : Graph} (holds : P g)
    (performed : g.perform changes = .ok g') : P g' := by
  induction changes generalizing g with
  | nil =>
    cases performed
    exact holds
  | cons c changes ih =>
    obtain ⟨first, rest⟩ := List.forall_mem_cons.mp builds
    rw [Graph.perform_cons] at performed
    obtain ⟨g₁, applied, performed⟩ := bind_eq_ok_iff.mp performed
    refine ih rest ?_ performed
    cases Graph.step_of_apply applied with
    | add accepting label => exact stable.add g accepting label holds
    | connect _ a _ => exact stable.withEdge g _ a _ first holds
    | setAccepting _ accepting => exact stable.withAccepting g _ accepting holds
    | setStarting | setLabel | keepLabel => exact first.elim

theorem Script.builds_fold {step : Nat → Fragment → Fragment → Script}
    (each : ∀ n x y, ∀ c ∈ (step n x y).changes, c.Builds symbols) (n : Nat) (x : Fragment)
    (ys : List Fragment) : ∀ c ∈ (fold step n x ys).changes, c.Builds symbols := by
  induction ys generalizing n x with
  | nil => simp [fold]
  | cons y ys ih => exact List.forall_mem_append.mpr ⟨each n x y, ih _ _⟩

namespace Combination

theorem builds_script {c : Combination Fragment}
    (fit : ∀ a ∈ c.symbols, symbols a) (n : Nat) :
    ∀ change ∈ (c.script n).changes, change.Builds symbols := by
  cases c <;> rw [Combination.symbols, List.forall_mem_singleton] at fit
  case concatAll x xs =>
    exact Script.builds_fold (fun n x y => by simp [Script.concat, Change.Builds, fit]) n x xs
  case unionAll x xs =>
    exact Script.builds_fold (fun n x y => by simp [Script.union, Change.Builds, fit]) n x xs
  all_goals
    simp [script, Script.char, Script.concat, Script.union, Script.optional, Script.plus,
      Script.star, Script.starFresh, Change.Builds, fit]

/-- No call takes away what none of its changes takes away. -/
theorem keeps_build (stable : Build.Stable symbols P)
    {c : Combination Fragment} (fit : ∀ a ∈ c.symbols, symbols a) {b : Build Fragment}
    (built : c.build = .ok b) {g g' : Graph} {z : Fragment} (holds : P g)
    (run : b.run g = .ok (z, g')) : P g' := by
  rw [c.follows_script built g] at run
  cases performed : g.perform (c.script g.size).changes with
  | error e =>
    rw [performed] at run
    cases run
  | ok made =>
    rw [performed] at run
    cases run
    exact stable.perform (builds_script fit g.size) holds performed

end Combination

def AnySymbol (_ : Symbol) : Prop := True

namespace Graph

def Unstarted (g : Graph) : Prop := ∀ i, (g.state i).starting = false

theorem unstarted_empty : empty.Unstarted := fun i => by
  rw [state_of_size_le (g := empty) (Nat.zero_le i)]

theorem stable_unstarted : Build.Stable AnySymbol Unstarted where
  add g accepting label none i := by rw [starting_add, none]
  withAccepting g i accepting none j := by rw [starting_withAccepting, none]
  withEdge g i a j _ none k := by rw [starting_withEdge, none]

end Graph

variable {g₀ g : Graph} {parts : List Part}

theorem Assembly.keeps {allowed : Graph → Combination Part → Prop} {P : Graph → Prop}
    (made : Assembly allowed g₀ g parts) (stable : Build.Stable AnySymbol P) (holds : P g₀) :
    P g := by
  induction made with
  | start => exact holds
  | call before unused fit built run ih =>
    exact Combination.keeps_build stable (fun _ _ => trivial) built ih run

/-! ### Unused fragments and finished automata -/

/-- All states of the fragment lie on the way from its input to its output, another state, and the
output alone accepts. -/
structure Fragment.Trim (g : Graph) (x : Fragment) : Prop where
  distinct : x.input ≠ x.output
  across : g.Reaches x.input x.output
  onward : ∀ i, g.Reaches x.input i → g.Reaches i x.output
  accepting : ∀ i, g.Reaches x.input i → ((g.state i).accepting = true ↔ i = x.output)

theorem Fragment.Sound.trim {x : Fragment} {e : Ends} (sound : x.Sound g e) : x.Trim g where
  distinct := sound.distinct
  across := sound.across
  onward := sound.onward
  accepting := sound.accepting

/-- Among the states that can be reached, only the input starts and only the output accepts. -/
structure Nfa.SoleEnds (a : Nfa) : Prop where
  reaches : a.graph.Reaches a.input a.output
  starting : ∀ i, a.graph.Reaches a.input i → ((a.graph.state i).starting = true ↔ i = a.input)
  accepting : ∀ i, a.graph.Reaches a.input i → ((a.graph.state i).accepting = true ↔ i = a.output)

theorem Fragment.Trim.finish {x : Fragment} (trim : x.Trim g) (within : x.In g)
    (unstarted : g.Unstarted) : ∃ a, Nfa.ofFragment g x = .ok a ∧ a.input = x.input ∧
      a.output = x.output ∧ a.SoleEnds := by
  refine ⟨_, Nfa.ofFragment_eq_ok within, rfl, rfl, ?_⟩
  have reaches (i : Nat) : (g.withStarting x.input true).Reaches x.input i ↔
      g.Reaches x.input i := exists_congr fun _ => Graph.run_withStarting
  constructor
  · exact (reaches _).mpr trim.across
  · intro i _
    show ((g.withStarting x.input true).state i).starting = true ↔ i = x.input
    rw [Graph.state_withStarting within.input_lt]
    split
    · next same => simp [same]
    · next other => simp [other, unstarted i]
  · intro i reach
    show ((g.withStarting x.input true).state i).accepting = true ↔ i = x.output
    rw [Graph.accepting_withStarting]
    exact trim.accepting i ((reaches i).mp reach)

/-- After any calls on unused fragments, those that are still unused are trim and share no state, no
state starts, each of them can be finished, and every further call on them returns a fragment. A
list combinator without operands is refused before it changes the graph, so it is no call here. -/
theorem Assembly.trim_apart (made : Assembly AnyCall g₀ g parts) (unstarted : g₀.Unstarted) :
    g.Unstarted ∧ (∀ p ∈ parts, p.fragment.Trim g) ∧
      parts.Pairwise (fun p q => p.fragment.Apart g q.fragment) ∧
      (∀ p ∈ parts, ∃ a, Nfa.ofFragment g p.fragment = .ok a ∧ a.input = p.fragment.input ∧
        a.output = p.fragment.output ∧ a.SoleEnds) ∧
      ∀ (c : Combination Part) rest, parts.Perm (c.operands ++ rest) →
        ∃ z g', Assembly AnyCall g₀ g' (⟨z, c.spelled⟩ :: rest) := by
  have live := made.live
  have unstarted' := made.keeps Graph.stable_unstarted unstarted
  have trim (p : Part) (hp : p ∈ parts) := (live.sound p hp).trim
  refine ⟨unstarted', trim, live.apart, fun p hp => ?_, fun c rest unused => ?_⟩
  · exact (trim p hp).finish (live.sound p hp).within unstarted'
  · exact made.exists_call unused trivial

/-- A loop over `a` and a fragment for `b` side by side. -/
theorem trim_apart_loop : ∃ g x y, Assembly AnyCall .empty g
    [⟨x, .starFresh (.char 'a')⟩, ⟨y, .char 'b'⟩] ∧ x.Trim g ∧ y.Trim g ∧ x.Apart g y ∧
      ∃ a, Nfa.ofFragment g x = .ok a ∧ a.SoleEnds := by
  have initial : Assembly AnyCall .empty .empty [] := .start
  obtain ⟨y, _, beside⟩ := initial.exists_call (c := .char 'b') (.refl _) trivial
  obtain ⟨_, _, made⟩ := beside.exists_call (c := .char 'a') (.refl _) trivial
  obtain ⟨x, g, made⟩ := made.exists_call (c := .starFresh _) (.refl _) trivial
  obtain ⟨-, trim, apart, finish, -⟩ := made.trim_apart Graph.unstarted_empty
  obtain ⟨a, finished, -, -, ends⟩ := finish _ List.mem_cons_self
  have apart := (List.pairwise_cons.mp apart).1 _ List.mem_cons_self
  refine ⟨g, x, y, made, ?_, ?_, apart, a, finished, ends⟩
  · exact trim _ List.mem_cons_self
  · exact trim _ (List.mem_cons_of_mem _ List.mem_cons_self)

end FiniteAutomata
