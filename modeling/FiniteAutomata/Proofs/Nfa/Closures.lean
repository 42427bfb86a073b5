import FiniteAutomata.Nfa.Tabulated
import FiniteAutomata.Proofs.Graph.DepthFirst
import FiniteAutomata.Proofs.Nfa.Rows

/-!
The closure table read off the direct one. Both have a row for every reachable state. Where the
direct table has the targets of the epsilon edges, the closure table has all labels that a
depth-first search through these columns meets, and the search never needs a row that is not there.
-/

namespace FiniteAutomata

namespace TransitionTable

variable {t : TransitionTable} {met ls : List Label} {l : Label} {r : Row}

/-- Searches from the labels of a list from left to right, as the columns for the empty word lead on.
A label that was not met before is met, then all labels that a search from its column meets. There
is no result if one of them has no row. -/
def descent? (t : TransitionTable) (met : List Label) : List Label → Option (List Label)
  | [] => some []
  | l :: ls =>
    if l ∈ met then descent? t met ls
    else
      match _ : t.row? l with
      | none => none
      | some r => do
        let below ← descent? t (l :: met) r.epsilon
        let rest ← descent? t (l :: below ++ met) ls
        return l :: below ++ rest
termination_by ls => (t.rows.countP (·.heading.label ∉ met), ls.length)
decreasing_by
  · exact .right _ (Nat.lt_succ_self _)
  · next fresh _ =>
    obtain ⟨member, rfl⟩ := label_of_row? ‹t.row? l = some r›
    refine .left _ _ (countP_lt_countP (fun s left => ?_) member (by simp) (by simpa using fresh))
    simp only [List.mem_cons, not_or, decide_eq_true_eq] at left ⊢
    exact left.2
  · refine .right' _ (List.countP_mono_left fun s _ left => ?_) (Nat.lt_succ_self _)
    simp only [List.cons_append, List.mem_cons, List.mem_append, not_or, decide_eq_true_eq] at left ⊢
    exact left.2.2

theorem descent?_cons_of_mem (known : l ∈ met) : t.descent? met (l :: ls) = t.descent? met ls := by
  rw [descent?, if_pos known]

theorem descent?_cons_of_row? (fresh : l ∉ met) (found : t.row? l = some r) :
    t.descent? met (l :: ls) = (t.descent? (l :: met) r.epsilon).bind fun below =>
      (t.descent? (l :: below ++ met) ls).map (l :: below ++ ·) := by
  rw [descent?, if_neg fresh]
  split
  · next absent => cases absent.symm.trans found
  · next r' found' =>
    obtain rfl := Option.some.inj (found'.symm.trans found)
    refine congrArg _ (funext fun below => ?_)
    cases t.descent? (l :: below ++ met) ls <;> rfl

/-- One table has the closures of the other, and is like it otherwise. -/
structure Closes (closure direct : TransitionTable) : Prop where
  alphabet : closure.alphabet = direct.alphabet
  headings : closure.rows.map (·.heading) = direct.rows.map (·.heading)
  columns : closure.rows.map (·.columns) = direct.rows.map (·.columns)
  epsilon : ∀ r ∈ closure.rows, direct.descent? [] [r.heading.label] = some r.epsilon
  distinct : ∀ r ∈ closure.rows, r.epsilon.Nodup

end TransitionTable

namespace Nfa

open TransitionTable (indexed)

variable {a : Nfa} {labelOf : Nat → Label} {alphabet : List Char} {unseen : Search.Unseen}
  {xs : List Nat} {met : List Label} {i j : Nat}

/-! ### The search on states and on labels -/

theorem reaches_of_within (reach : a.graph.Reaches i j) {k : Nat}
    (within : Search.Within (a.graph.targets · .epsilon) unseen j k) : a.graph.Reaches i k := by
  induction within with
  | here => exact reach
  | step _ edge _ ih => exact ih (reach.tail edge)

theorem reaches_of_mem_descend (reach : ∀ x ∈ xs, a.graph.Reaches i x)
    (member : j ∈ Search.descend (a.graph.targets · .epsilon) unseen xs) : a.graph.Reaches i j := by
  rw [← Search.preorder_eq_descend, Search.mem_preorder_iff] at member
  obtain ⟨x, hx, within⟩ := member
  exact reaches_of_within (reach x hx) within

theorem Labelled.mem_map_iff (labelled : a.Labelled labelOf)
    (reach : ∀ x ∈ xs, a.graph.Reaches a.input x) (hj : a.graph.Reaches a.input j) :
    labelOf j ∈ xs.map labelOf ↔ j ∈ xs := by
  constructor
  · intro member
    obtain ⟨x, hx, same⟩ := List.mem_map.mp member
    exact labelled.inj x j (reach x hx) hj same ▸ hx
  · exact List.mem_map_of_mem

/-- The search through the columns of the direct table meets the labels of the states that the search
through epsilon edges meets. The labels in `met` are those of the states seen before. -/
theorem Labelled.descent?_eq (labelled : a.Labelled labelOf) (alphabet : List Char)
    (unseen : Search.Unseen) (xs : List Nat) : ∀ met : List Label,
    (∀ x ∈ xs, a.graph.Reaches a.input x) →
    (∀ x, a.graph.Reaches a.input x → (labelOf x ∈ met ↔ x ∉ unseen)) →
    (indexed alphabet (a.states.map (a.rowOf .direct alphabet labelOf))).descent? met
        (xs.map labelOf) =
      some ((Search.descend (a.graph.targets · .epsilon) unseen xs).map labelOf) := by
  fun_induction Search.descend (a.graph.targets · .epsilon) unseen xs with
  | case1 =>
    intro met _ _
    exact TransitionTable.descent?.eq_1 ..
  | case2 unseen x xs hx below ih rest =>
    intro met reach seen
    obtain ⟨reachX, reach⟩ := List.forall_mem_cons.mp reach
    have fresh : labelOf x ∉ met := fun known => (seen x reachX).mp known hx
    have edges : ∀ y ∈ a.graph.targets x .epsilon, a.graph.Reaches a.input y :=
      fun y edge => reachX.tail edge
    have first := ih (labelOf x :: met) edges fun y reachY => by
      have same : labelOf y = labelOf x ↔ y = x :=
        ⟨labelled.inj y x reachY reachX, congrArg labelOf⟩
      rw [List.mem_cons, same, seen y reachY, Search.Unseen.mem_erase]
      grind
    have second := rest (labelOf x :: below.map labelOf ++ met) reach fun y reachY => by
      have members : ∀ z ∈ x :: below, a.graph.Reaches a.input z :=
        List.forall_mem_cons.mpr ⟨reachX, fun z member => reaches_of_mem_descend edges member⟩
      rw [← List.map_cons, List.mem_append, labelled.mem_map_iff members reachY, seen y reachY,
        Search.Unseen.mem_eraseAll]
      grind
    have column : (a.rowOf .direct alphabet labelOf x).epsilon =
        (a.graph.targets x .epsilon).map labelOf := rfl
    rw [List.map_cons, TransitionTable.descent?_cons_of_row? fresh
      (labelled.row?_eq .direct alphabet reachX), column, first, Option.bind_some, second,
      Option.map_some, List.map_append, List.map_cons]
  | case3 unseen x xs hx ih =>
    intro met reach seen
    obtain ⟨reachX, reach⟩ := List.forall_mem_cons.mp reach
    rw [List.map_cons, TransitionTable.descent?_cons_of_mem ((seen x reachX).mpr hx),
      ih met reach seen]

theorem Labelled.closes (labelled : a.Labelled labelOf) (alphabet : List Char) :
    (indexed alphabet (a.states.map (a.rowOf .closure alphabet labelOf))).Closes
      (indexed alphabet (a.states.map (a.rowOf .direct alphabet labelOf))) where
  alphabet := rfl
  headings := by
    show (a.states.map _).map _ = (a.states.map _).map _
    rw [List.map_map, List.map_map]
    rfl
  columns := by
    show (a.states.map _).map _ = (a.states.map _).map _
    rw [List.map_map, List.map_map]
    rfl
  epsilon r member := by
    obtain ⟨i, hi, rfl⟩ := List.mem_map.mp member
    have reach : ∀ x ∈ [i], a.graph.Reaches a.input x := by simpa using mem_states.mp hi
    have start (x : Nat) (reach : a.graph.Reaches a.input x) :
        labelOf x ∈ [] ↔ x ∉ Search.Unseen.below a.graph.size := by
      simpa using reach.lt_size a.input_lt
    show _ = some ((a.graph.silentlyReachable [i]).map labelOf)
    rw [Graph.silentlyReachable_eq]
    exact labelled.descent?_eq alphabet _ [i] [] reach start
  distinct r member := by
    obtain ⟨i, hi, rfl⟩ := List.mem_map.mp member
    have reach {j : Nat} (silent : j ∈ a.graph.silentlyReachable [i]) :
        a.graph.Reaches a.input j := by
      rw [Graph.silentlyReachable_eq] at silent
      exact reaches_of_mem_descend (by simpa using mem_states.mp hi) silent
    apply List.Nodup.map_on _ (Search.nodup_preorder ..)
    intro j hj k hk same
    exact labelled.inj j k (reach hj) (reach hk) same

end Nfa

/-- The direct and the closure table of an automaton either fail alike or are both made, and then the
second has the closures of the first. -/
theorem Tabulated.closes_transitionTable (a : Nfa) :
    (∃ e, a.transitionTable.2 = .error e ∧ (Tabulated.make ⟨a, none⟩).2 = .error e) ∨
    ∃ direct closure, a.transitionTable.2 = .ok direct ∧
      (Tabulated.make ⟨a, none⟩).2 = .ok closure ∧ closure.Closes direct := by
  have labels := a.labels_labelled
  show (∃ e, a.labelled.tabulate .direct = .error e ∧ _) ∨
    ∃ direct closure, a.labelled.tabulate .direct = .ok direct ∧ _
  cases repeated : firstRepeat? (a.labelled.states.map a.labelling) with
  | some l =>
    have direct : a.labelled.tabulate .direct = .error (.duplicateLabel l) := by
      rw [labels.tabulate_eq, repeated]
    have closure : a.labelled.tabulate .closure = .error (.duplicateLabel l) := by
      rw [labels.tabulate_eq, repeated]
    refine .inl ⟨_, direct, ?_⟩
    rw [make_of_error (t := ⟨a, none⟩) rfl closure]
  | none =>
    have labelled := labels.labelled_of_firstRepeat? repeated
    refine .inr ⟨_, _, labelled.tabulate_eq_ok .direct, ?_, labelled.closes _⟩
    rw [make_of_ok (t := ⟨a, none⟩) rfl (labelled.tabulate_eq_ok .closure)]

/-- A cycle of epsilon edges with a shortcut. -/
def Nfa.ring : Nfa where
  graph :=
    let states := ((Graph.empty.add false).add false).add true
    let cycle := ((states.withEdge 0 .epsilon 2).withEdge 2 .epsilon 1).withEdge 1 .epsilon 0
    (cycle.withEdge 0 .epsilon 1).withEdge 1 (.char 'a') 1
  input := 0
  output := 2
  input_lt := by decide
  output_lt := by decide

example : (Nfa.ring.transitionTable.2.toOption.bind (·.descent? [] [.number 2])) =
    some [.number 2, .number 3, .number 1] := by cbv

end FiniteAutomata
