import FiniteAutomata.Graph.Reachable
import FiniteAutomata.Proofs.Except
import FiniteAutomata.Proofs.Graph.Changes
import FiniteAutomata.Proofs.Occurrence

/-!
Graphs against the changes that made them. The groups in which a state keeps its targets hold what
the edges added to it say, in the order of these changes, and no change takes a label away.
-/

namespace FiniteAutomata

/-! ### Edges added one by one -/

namespace Edges

/-- The groups after adding edges from left to right. -/
def addAll (e : Edges) (edges : List (Symbol × Nat)) : Edges :=
  edges.foldl (fun e edge => e.add edge.1 edge.2) e

theorem addAll_append (e : Edges) (first rest : List (Symbol × Nat)) :
    e.addAll (first ++ rest) = (e.addAll first).addAll rest :=
  List.foldl_append

theorem targets_addAll (edges : List (Symbol × Nat)) (a : Symbol) :
    (addAll .empty edges).targets a = (edges.filter (·.1 = a)).map (·.2) := by
  induction edges using List.reverseRecOn with
  | nil => rfl
  | append_singleton edges edge ih =>
    rw [addAll_append, List.filter_append, List.map_append, ← ih]
    refine (targets_add ..).trans ?_
    split
    · next same => simp [same]
    · next other => simp [Ne.symm other]

theorem symbols_addAll (edges : List (Symbol × Nat)) :
    (addAll .empty edges).symbols = (edges.map (·.1)).eraseDups := by
  induction edges using List.reverseRecOn with
  | nil => rfl
  | append_singleton edges edge ih =>
    rw [addAll_append, List.map_append, List.map_singleton, eraseDups_concat]
    refine (symbols_add ..).trans ?_
    simp only [ih, List.mem_eraseDups]

/-- A group for each symbol in order of first use, with its targets in the order of the edges. -/
theorem groups_addAll (edges : List (Symbol × Nat)) : (addAll .empty edges).groups =
    (edges.map (·.1)).eraseDups.map fun a => (a, (edges.filter (·.1 = a)).map (·.2)) := by
  simp only [groups_eq, symbols_addAll, targets_addAll]

end Edges

/-! ### Changes -/

inductive Change where
  | add (accepting : Bool) (label : Option Label)
  | connect (i : Nat) (a : Symbol) (j : Nat)
  | setAccepting (i : Nat) (accepting : Bool)
  | setStarting (i : Nat) (starting : Bool)
  | setLabel (i : Nat) (label : Label)

namespace Graph

variable {g g' : Graph} {c : Change} {changes : List Change} {i : Nat}

/-- Makes one change. A state that has a label already keeps it. -/
def apply (g : Graph) : Change → Except Misuse Graph
  | .add accepting label => .ok (g.add accepting label)
  | .connect i a j => g.connect i a j
  | .setAccepting i accepting => g.setAccepting i accepting
  | .setStarting i starting => g.setStarting i starting
  | .setLabel i label => do
    g.requireState i
    return (g.setLabel i label).toOption.getD g

def perform (g : Graph) (changes : List Change) : Except Misuse Graph := changes.foldlM apply g

theorem perform_cons (g : Graph) (c : Change) (changes : List Change) :
    g.perform (c :: changes) = (g.apply c).bind (·.perform changes) :=
  List.foldlM_cons

theorem perform_append (g : Graph) (first rest : List Change) :
    g.perform (first ++ rest) = (g.perform first).bind (·.perform rest) :=
  List.foldlM_append

/-- What one change does, if it is not refused. -/
inductive Step (g : Graph) : Change → Graph → Prop where
  | add (accepting : Bool) (label : Option Label) :
    Step g (.add accepting label) (g.add accepting label)
  | connect {i j : Nat} (source : i < g.size) (a : Symbol) (target : j < g.size) :
    Step g (.connect i a j) (g.withEdge i a j)
  | setAccepting {i : Nat} (existing : i < g.size) (accepting : Bool) :
    Step g (.setAccepting i accepting) (g.withAccepting i accepting)
  | setStarting {i : Nat} (existing : i < g.size) (starting : Bool) :
    Step g (.setStarting i starting) (g.withStarting i starting)
  | setLabel {i : Nat} (existing : i < g.size) (none : (g.state i).label = none) (label : Label) :
    Step g (.setLabel i label) (g.withLabel i label)
  | keepLabel {i : Nat} (existing : i < g.size) (some : (g.state i).label ≠ none) (label : Label) :
    Step g (.setLabel i label) g

theorem step_of_apply (applied : g.apply c = .ok g') : g.Step c g' := by
  cases c with
  | add accepting label =>
    cases applied
    exact .add accepting label
  | connect i a j =>
    obtain ⟨target, source, rfl⟩ := connect_eq_ok_iff.mp applied
    exact .connect source a target
  | setAccepting i accepting =>
    obtain ⟨existing, rfl⟩ := setAccepting_eq_ok_iff.mp applied
    exact .setAccepting existing accepting
  | setStarting i starting =>
    obtain ⟨existing, rfl⟩ := setStarting_eq_ok_iff.mp applied
    exact .setStarting existing starting
  | setLabel i label =>
    obtain ⟨existing, rest⟩ := requireState_bind_eq_ok_iff.mp applied
    cases known : (g.state i).label with
    | none =>
      rw [Graph.setLabel, known] at rest
      cases rest
      exact .setLabel existing known label
    | some old =>
      rw [Graph.setLabel, known] at rest
      cases rest
      exact .keepLabel existing (by simp [known]) label

end Graph

/-! ### Histories -/

/-- The edge that a change adds to a state. -/
def Change.edge? (i : Nat) : Change → Option (Symbol × Nat)
  | .connect k a j => if k = i then some (a, j) else none
  | _ => none

def leaving (i : Nat) (changes : List Change) : List (Symbol × Nat) := changes.filterMap (·.edge? i)

/-- The targets of the edges that changes add to a state on a symbol, in order. -/
def connected (i : Nat) (a : Symbol) (changes : List Change) : List Nat :=
  ((leaving i changes).filter (·.1 = a)).map (·.2)

def added (changes : List Change) : Nat :=
  changes.countP fun
    | .add .. => true
    | _ => false

namespace Graph

variable {g g' : Graph} {c : Change} {changes : List Change} {i : Nat}

theorem Step.size (step : g.Step c g') : g'.size = g.size + added [c] := by
  cases step <;> simp [added]

theorem Step.edges (step : g.Step c g') (i : Nat) :
    (g'.state i).edges = (g.state i).edges.addAll (leaving i [c]) := by
  cases step with
  | add accepting label =>
    -- The number of the new state had no edges before, as no state had it.
    rw [state_add]
    split
    · next new => rw [state_of_size_le (Nat.le_of_eq new.symm)]; rfl
    · rfl
  | connect source a target =>
    rw [state_withEdge source a target]
    split
    · next same => simp [same, leaving, Change.edge?, Edges.addAll]
    · next other => simp [Ne.symm other, leaving, Change.edge?, Edges.addAll]
  | setAccepting _ accepting =>
    exact kept_withAccepting (·.edges) g _ (fun _ _ => rfl) accepting i
  | setStarting _ starting => exact kept_withStarting (·.edges) g _ (fun _ _ => rfl) starting i
  | setLabel _ _ label => exact kept_withLabel (·.edges) g _ (fun _ _ => rfl) label i
  | keepLabel => rfl

theorem Step.label (step : g.Step c g') {label : Label} (known : (g.state i).label = some label) :
    (g'.state i).label = some label := by
  rw [← known]
  cases step with
  | add accepting =>
    -- The state that is added is another one, since its number had no label.
    rw [state_add_of_ne]
    rintro rfl
    rw [state_of_size_le (Nat.le_refl _)] at known
    cases known
  | connect _ a _ => exact kept_withEdge (·.label) g _ (fun _ _ => rfl) a _ i
  | setAccepting _ accepting =>
    exact kept_withAccepting (·.label) g _ (fun _ _ => rfl) accepting i
  | setStarting _ starting => exact kept_withStarting (·.label) g _ (fun _ _ => rfl) starting i
  | @setLabel k existing none new =>
    rw [state_withLabel existing, if_neg]
    rintro rfl
    cases known.symm.trans none
  | keepLabel => rfl

/-! ### Runs -/

/-- An invariant of steps holds after all changes. -/
theorem perform_induction {motive : List Change → Graph → Prop} (start : motive [] g)
    (step : ∀ before c g₁ g₂, motive before g₁ → g₁.Step c g₂ → motive (before ++ [c]) g₂)
    (performed : g.perform changes = .ok g') : motive changes g' := by
  induction changes using List.reverseRecOn generalizing g' with
  | nil =>
    cases performed
    exact start
  | append_singleton changes c ih =>
    rw [perform_append] at performed
    obtain ⟨g₁, first, last⟩ := bind_eq_ok_iff.mp performed
    rw [perform_cons] at last
    obtain ⟨g₂, last, done⟩ := bind_eq_ok_iff.mp last
    cases done
    exact step changes c g₁ _ (ih first) (step_of_apply last)

theorem size_of_perform (performed : g.perform changes = .ok g') :
    g'.size = g.size + added changes := by
  refine perform_induction (motive := fun changes g' => g'.size = g.size + added changes) rfl
    (fun before c g₁ g₂ ih step => ?_) performed
  rw [step.size, ih, added, added, added, List.countP_append, Nat.add_assoc]

theorem edges_of_perform (performed : g.perform changes = .ok g') (i : Nat) :
    (g'.state i).edges = (g.state i).edges.addAll (leaving i changes) := by
  refine perform_induction (motive := fun changes g' =>
    (g'.state i).edges = (g.state i).edges.addAll (leaving i changes)) rfl
    (fun before c g₁ g₂ ih step => ?_) performed
  rw [step.edges, ih, leaving, leaving, leaving, List.filterMap_append, Edges.addAll_append]

theorem label_of_perform (performed : g.perform changes = .ok g') {label : Label}
    (known : (g.state i).label = some label) : (g'.state i).label = some label :=
  perform_induction (motive := fun _ g' => (g'.state i).label = some label) known
    (fun _ _ _ _ ih step => step.label ih) performed

/-- In a graph made from nothing, the groups of a state are those of the edges added to it. -/
theorem groups_of_perform (performed : Graph.empty.perform changes = .ok g) (i : Nat) :
    (g.state i).edges.groups =
      ((leaving i changes).map (·.1)).eraseDups.map fun a => (a, connected i a changes) := by
  rw [edges_of_perform performed, state_of_size_le (g := empty) (Nat.zero_le i)]
  exact Edges.groups_addAll (leaving i changes)

theorem targets_of_perform (performed : Graph.empty.perform changes = .ok g) (i : Nat)
    (a : Symbol) : g.targets i a = connected i a changes := by
  rw [targets, State.targets, edges_of_perform performed,
    state_of_size_le (g := empty) (Nat.zero_le i)]
  exact Edges.targets_addAll (leaving i changes) a

end Graph

end FiniteAutomata
