import FiniteAutomata.Proofs.Fragment.Scripts
import FiniteAutomata.Proofs.Graph.Exploration
import FiniteAutomata.Proofs.Search.Checked

/-!
Graphs after any sequence of operations, changes of single states and calls of combinators mixed, on
any numbers and any fragments. As long as nothing is refused, the graph is the one that the changes
behind the operations make, so its states keep what their history says.
-/

namespace FiniteAutomata

/-! ### Checked searches of a graph -/

namespace Graph

variable {g : Graph} {i : Nat}

def reachableChecked (g : Graph) (i : Nat) : Except Misuse (List Nat) :=
  (Search.visitFreshChecked g.successors (.below g.size) [i] #[]).map Array.toList

def epsilonClosureChecked (g : Graph) (i : Nat) :
    Except Misuse (Except AutomatonError (List Label)) :=
  (Search.collectChecked (g.targets · .epsilon) g.label (.below g.size) [i] #[]).map
    (·.map Array.toList)

theorem size_below (n : Nat) : (Search.Unseen.below n).flags.size = n := Array.size_replicate

theorem reachableChecked_eq (existing : i < g.size) :
    g.reachableChecked i = .ok (g.reachable i) := by
  have inside (k j : Nat) (next : j ∈ g.successors k) : j < g.size := by
    obtain ⟨a, edge⟩ := mem_successors.mp next
    exact lt_size_of_mem_targets edge
  rw [reachableChecked, Search.visitFreshChecked_eq inside (size_below _) (by simpa)]
  rfl

theorem epsilonClosureChecked_eq (existing : i < g.size) :
    g.epsilonClosureChecked i = .ok (g.epsilonClosure i) := by
  have inside (k j : Nat) (edge : j ∈ g.targets k .epsilon) : j < g.size :=
    lt_size_of_mem_targets edge
  rw [epsilonClosureChecked, Search.collectChecked_eq inside (size_below _) (by simpa)]
  rfl

end Graph

/-! ### Operations -/

/-- A call on a graph or on a builder of fragments. A list combinator without operands reports an
error and does nothing. -/
inductive Operation where
  | change (c : Change)
  | combine (c : Combination Fragment)
  | concatNone
  | unionNone

namespace Operation

def attempt (b : Except AutomatonError (Build Fragment)) (g : Graph) : Except Misuse Graph :=
  match b with
  | .ok b => (b.run g).map (·.2)
  | .error _ => .ok g

def run (g : Graph) : Operation → Except Misuse Graph
  | change c => g.apply c
  | combine c => attempt c.build g
  | concatNone => attempt (Fragment.concatAll []) g
  | unionNone => attempt (Fragment.unionAll []) g

def changes (n : Nat) : Operation → List Change
  | change c => [c]
  | combine c => (c.script n).changes
  | concatNone | unionNone => []

theorem run_eq (g : Graph) (o : Operation) : o.run g = g.perform (o.changes g.size) := by
  cases o with
  | change c =>
    show g.apply c = _
    rw [changes, Graph.perform_cons]
    cases g.apply c <;> rfl
  | combine c =>
    obtain ⟨b, built⟩ : ∃ b, c.build = .ok b := by cases c <;> exact ⟨_, rfl⟩
    rw [run, changes, built]
    show (b.run g).map _ = _
    rw [c.follows_script built g]
    cases g.perform (c.script g.size).changes <;> rfl
  | concatNone | unionNone => rfl

end Operation

/-- All changes behind operations from a graph of `n` states on, in order. -/
def history (n : Nat) : List Operation → List Change
  | [] => []
  | o :: ops => o.changes n ++ history (n + added (o.changes n)) ops

namespace Graph

variable {g : Graph} {ops : List Operation}

def runAll (g : Graph) (ops : List Operation) : Except Misuse Graph :=
  ops.foldlM (fun g o => o.run g) g

theorem runAll_append (g : Graph) (first rest : List Operation) :
    g.runAll (first ++ rest) = (g.runAll first).bind (·.runAll rest) :=
  List.foldlM_append

theorem runAll_eq (g : Graph) (ops : List Operation) :
    g.runAll ops = g.perform (history g.size ops) := by
  -- Which numbers the scripts of later operations have depends on the states added by earlier ones.
  induction ops generalizing g with
  | nil => rfl
  | cons o ops ih =>
    rw [runAll, List.foldlM_cons, Operation.run_eq, history, perform_append]
    cases performed : g.perform (o.changes g.size) with
    | error e => rfl
    | ok g' =>
      rw [← size_of_perform performed]
      exact ih g'

/-- After operations of which none is refused, every state has a group of targets, at least one, for
each symbol that an edge was added on, in order of first use and with the targets in call order, and
all targets are states. A label stays what it was after any of the operations, and no search from a
state looks up a number that is none. -/
theorem wellFormed_of_runAll (run : empty.runAll ops = .ok g) :
    empty.perform (history 0 ops) = .ok g ∧
    (∀ i, ∀ group ∈ (g.state i).edges.groups, ∀ j ∈ group.2, j < g.size) ∧
    (∀ i, ((g.state i).edges.groups.map (·.1)).Nodup ∧
      ∀ group ∈ (g.state i).edges.groups, group.2 ≠ []) ∧
    (∀ i, (g.state i).edges.groups = ((leaving i (history 0 ops)).map (·.1)).eraseDups.map
      fun a => (a, connected i a (history 0 ops))) ∧
    (∀ i a, g.targets i a = connected i a (history 0 ops)) ∧
    (∀ before after g₁ i label, ops = before ++ after → empty.runAll before = .ok g₁ →
      (g₁.state i).label = some label → (g.state i).label = some label) ∧
    ∀ i, i < g.size → (∀ w, ∃ found, g.search i w = .ok found) ∧
      g.reachableChecked i = .ok (g.reachable i) ∧
      g.epsilonClosureChecked i = .ok (g.epsilonClosure i) := by
  have performed : empty.perform (history 0 ops) = .ok g := (runAll_eq empty ops).symm.trans run
  refine ⟨performed, fun i group member j target => ?_, fun i => ?_, groups_of_perform performed,
    targets_of_perform performed, ?_, fun i existing => ⟨fun w => ?_, ?_, ?_⟩⟩
  · have next : j ∈ g.successors i := List.mem_flatMap.mpr ⟨group, member, target⟩
    obtain ⟨a, edge⟩ := mem_successors.mp next
    exact lt_size_of_mem_targets edge
  · exact ⟨(g.state i).edges.nodup, (g.state i).edges.nonempty⟩
  · rintro before after g₁ i label rfl first known
    rw [runAll_append, first] at run
    exact label_of_perform ((runAll_eq g₁ after).symm.trans run) known
  · obtain ⟨found, explored, -⟩ := (frontier_start ⟨w.toArray, rfl⟩ existing).explore_eq_ok
    exact ⟨found, explored⟩
  · exact reachableChecked_eq existing
  · exact epsilonClosureChecked_eq existing

/-- A fragment united with itself, an edge added twice, and a second label that is refused. -/
def sharedOperations : List Operation :=
  [.change (.add false (some (.name "s"))), .combine (.char 'a'), .combine (.union ⟨1, 2⟩ ⟨1, 2⟩),
    .change (.connect 0 .epsilon 3), .concatNone, .change (.setLabel 0 (.number 7)),
    .change (.connect 0 .epsilon 3)]

theorem wellFormed_of_runAll_shared : ∃ g, empty.runAll sharedOperations = .ok g ∧
    g.targets 0 .epsilon = [3, 3] ∧ g.targets 3 .epsilon = [1, 1] ∧ g.targets 2 .epsilon = [4, 4] ∧
    (g.state 0).label = some (.name "s") ∧ ∃ found, g.search 0 ['a'] = .ok found := by
  obtain ⟨g, run⟩ : ∃ g, empty.runAll sharedOperations = .ok g := ⟨_, rfl⟩
  obtain ⟨performed, -, -, -, targets, labels, searches⟩ := wellFormed_of_runAll run
  have existing : 0 < g.size := by
    rw [size_of_perform performed]
    decide
  refine ⟨g, run, ?_, ?_, ?_, ?_, (searches 0 existing).1 ['a']⟩
  · exact targets 0 .epsilon
  · exact targets 3 .epsilon
  · exact targets 2 .epsilon
  · exact labels [.change (.add false (some (.name "s")))] _ _ 0 _ rfl rfl rfl

end Graph

end FiniteAutomata
