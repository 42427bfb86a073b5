import FiniteAutomata.Graph.Configuration
import FiniteAutomata.Proofs.Graph.Reachability

/-!
The search for a final configuration finds one if and only if there is a run. What follows from the
configurations met is met or on the stack, and none of those met is final, so leaving them out of
the search loses no run.
-/

namespace FiniteAutomata.Graph

variable {g : Graph} {length : Nat} {word : Vector Char length}
  {met : Std.HashSet (Configuration length)} {stack : List (Configuration length)}
  {c d : Configuration length}

/-! ### Configurations and runs -/

/-- What is left of a word in a configuration. -/
def rest (word : Vector Char length) (c : Configuration length) : List Char :=
  word.toList.drop c.position.val

/-- A run over the rest of the word leads from the configuration to an accepting state. -/
def Succeeds (g : Graph) (word : Vector Char length) (c : Configuration length) : Prop :=
  ∃ j, g.Run c.state (rest word c) j ∧ (g.state j).accepting = true

theorem rest_eq_nil_iff : rest word c = [] ↔ c.position.val = length := by
  have bound := c.position.isLt
  rw [rest, List.drop_eq_nil_iff, Vector.length_toList]
  omega

theorem rest_eq_cons (word : Vector Char length) (more : c.position.val < length) :
    rest word c = word[c.position.val] :: word.toList.drop (c.position.val + 1) := by
  rw [rest, List.drop_eq_getElem_cons (by rwa [Vector.length_toList]), Vector.getElem_toList]

theorem isFinal_iff (word : Vector Char length) : g.isFinal c = true ↔
    rest word c = [] ∧ (g.state c.state).accepting = true := by
  rw [isFinal, Bool.and_eq_true, decide_eq_true_eq, rest_eq_nil_iff]

/-- The targets of edges follow, those of an edge on the next character with the rest behind it. -/
theorem exists_following_iff {P : Nat → List Char → Prop} :
    (∃ d ∈ g.following word c, P d.state (rest word d)) ↔
      (∃ j ∈ g.targets c.state .epsilon, P j (rest word c)) ∨
        ∃ a w, rest word c = a :: w ∧ ∃ j ∈ g.targets c.state (.char a), P j w := by
  rw [following]
  split
  · next more =>
    have head := rest_eq_cons word more
    constructor
    · rintro ⟨d, member, holds⟩
      rcases List.mem_append.mp member with member | member
      · obtain ⟨j, edge, rfl⟩ := List.mem_map.mp member
        exact .inr ⟨_, _, head, j, edge, holds⟩
      · obtain ⟨j, edge, rfl⟩ := List.mem_map.mp member
        exact .inl ⟨j, edge, holds⟩
    · rintro (⟨j, edge, holds⟩ | ⟨a, w, left, j, edge, holds⟩)
      · exact ⟨_, List.mem_append_right _ (List.mem_map.mpr ⟨j, edge, rfl⟩), holds⟩
      · obtain ⟨rfl, rfl⟩ := List.cons.inj (head.symm.trans left)
        exact ⟨_, List.mem_append_left _ (List.mem_map.mpr ⟨j, edge, rfl⟩), holds⟩
  · next done =>
    have last : rest word c = [] := by
      have bound := c.position.isLt
      rw [rest_eq_nil_iff]
      omega
    constructor
    · rintro ⟨d, member, holds⟩
      obtain ⟨j, edge, rfl⟩ := List.mem_map.mp member
      exact .inl ⟨j, edge, holds⟩
    · rintro (⟨j, edge, holds⟩ | ⟨a, w, left, -⟩)
      · exact ⟨_, List.mem_map.mpr ⟨j, edge, rfl⟩, holds⟩
      · cases last.symm.trans left

/-- A run stops at once in a final configuration, or goes on from a configuration that follows. -/
theorem succeeds_iff : g.Succeeds word c ↔
    g.isFinal c = true ∨ ∃ d ∈ g.following word c, g.Succeeds word d := by
  have next := @exists_following_iff g length word c
    fun i w => ∃ j, g.Run i w j ∧ (g.state j).accepting = true
  unfold Succeeds
  rw [next, isFinal_iff word]
  generalize rest word c = w
  constructor
  · rintro ⟨j, run, flag⟩
    cases run with
    | stop => exact .inl ⟨rfl, flag⟩
    | silent edge run => exact .inr (.inl ⟨_, edge, j, run, flag⟩)
    | read edge run => exact .inr (.inr ⟨_, _, rfl, _, edge, j, run, flag⟩)
  · rintro (⟨rfl, flag⟩ | ⟨k, edge, j, run, flag⟩ | ⟨a, w, rfl, k, edge, j, run, flag⟩)
    · exact ⟨c.state, .stop c.state, flag⟩
    · exact ⟨j, .silent edge run, flag⟩
    · exact ⟨j, .read edge run, flag⟩

/-! ### The search -/

/-- What holds of the configurations met and of the stack at any time of the search. -/
structure Frontier (g : Graph) (word : Vector Char length)
    (met : Std.HashSet (Configuration length)) (stack : List (Configuration length)) : Prop where
  inside : ∀ c ∈ stack, c.state < g.size
  rejected : ∀ c ∈ met, g.isFinal c = false
  next : ∀ c ∈ met, ∀ d ∈ g.following word c, d ∈ met ∨ d ∈ stack

theorem inside_following (member : d ∈ g.following word c) : d.state < g.size := by
  have edges := (exists_following_iff (P := fun i _ => i = d.state)).mp ⟨d, member, rfl⟩
  rcases edges with ⟨_, edge, rfl⟩ | ⟨_, _, -, _, edge, rfl⟩
  · exact lt_size_of_mem_targets edge
  · exact lt_size_of_mem_targets edge

theorem frontier_start (word : Vector Char length) {i : Nat} (lt : i < g.size) :
    g.Frontier word ∅ [⟨i, 0⟩] where
  inside c member := by
    rw [List.mem_singleton] at member
    exact member ▸ lt
  rejected c member := by simp at member
  next c member := by simp at member

namespace Frontier

/-- A configuration met before is left out. -/
theorem skip (frontier : g.Frontier word met (c :: stack)) (old : c ∈ met) :
    g.Frontier word met stack where
  inside d member := frontier.inside d (List.mem_cons_of_mem c member)
  rejected := frontier.rejected
  next d member e next := by
    rcases frontier.next d member e next with known | waiting
    · exact .inl known
    · rcases List.mem_cons.mp waiting with rfl | waiting
      · exact .inl old
      · exact .inr waiting

/-- A configuration is met, and what follows from it waits on the stack. -/
theorem expand (frontier : g.Frontier word met (c :: stack)) (rejects : g.isFinal c = false) :
    g.Frontier word (met.insert c) (g.following word c ++ stack) where
  inside d member := by
    rcases List.mem_append.mp member with member | member
    · exact inside_following member
    · exact frontier.inside d (List.mem_cons_of_mem c member)
  rejected d member := by
    rcases Std.HashSet.mem_insert.mp member with same | member
    · exact eq_of_beq same ▸ rejects
    · exact frontier.rejected d member
  next d member e next := by
    rw [Std.HashSet.mem_insert, List.mem_append]
    rcases Std.HashSet.mem_insert.mp member with same | member
    · obtain rfl := eq_of_beq same
      exact .inr (.inl next)
    · rcases frontier.next d member e next with known | waiting
      · exact .inl (.inr known)
      · rcases List.mem_cons.mp waiting with rfl | waiting
        · exact .inl (.inl (beq_self_eq_true e))
        · exact .inr (.inr waiting)

/-- A run from a configuration met before goes through one on the stack. -/
theorem exists_succeeds (frontier : g.Frontier word met stack) (old : c ∈ met)
    (succeeds : g.Succeeds word c) : ∃ d ∈ stack, g.Succeeds word d := by
  obtain ⟨j, run, flag⟩ := succeeds
  generalize here : c.state = i, left : rest word c = w at run
  induction run generalizing c with
  | stop =>
    have final := (isFinal_iff word).mpr ⟨left, here ▸ flag⟩
    cases final.symm.trans (frontier.rejected c old)
  | @silent i k j w edge run ih =>
    obtain ⟨d, next, rfl, rfl⟩ := (exists_following_iff (P := fun i v => i = k ∧ v = w)).mpr
      (.inl ⟨k, here ▸ edge, rfl, left⟩)
    rcases frontier.next c old d next with known | waiting
    · exact ih known flag rfl rfl
    · exact ⟨d, waiting, j, run, flag⟩
  | @read i k j a w edge run ih =>
    obtain ⟨d, next, rfl, rfl⟩ := (exists_following_iff (P := fun i v => i = k ∧ v = w)).mpr
      (.inr ⟨a, w, left, k, here ▸ edge, rfl, rfl⟩)
    rcases frontier.next c old d next with known | waiting
    · exact ih known flag rfl rfl
    · exact ⟨d, waiting, j, run, flag⟩

theorem explore_eq_ok (frontier : g.Frontier word met stack) :
    ∃ found, g.explore word met stack = .ok found ∧
      (found = true ↔ ∃ c ∈ stack, g.Succeeds word c) := by
  fun_induction explore g word met stack with
  | case1 => exact ⟨false, rfl, by simp⟩
  | case2 met c stack old ih =>
    obtain ⟨found, explored, iff⟩ := ih (frontier.skip old)
    refine ⟨found, explored, iff.trans ?_⟩
    constructor
    · rintro ⟨d, member, succeeds⟩
      exact ⟨d, List.mem_cons_of_mem c member, succeeds⟩
    · rintro ⟨d, member, succeeds⟩
      rcases List.mem_cons.mp member with rfl | member
      · exact (frontier.skip old).exists_succeeds old succeeds
      · exact ⟨d, member, succeeds⟩
  | case3 met c stack _ _ final =>
    exact ⟨true, rfl, fun _ => ⟨c, List.mem_cons_self, succeeds_iff.mpr (.inl final)⟩, fun _ => rfl⟩
  | case4 met c stack _ _ rejects ih =>
    rw [Bool.not_eq_true] at rejects
    obtain ⟨found, explored, iff⟩ := ih (frontier.expand rejects)
    refine ⟨found, explored, iff.trans ?_⟩
    simp only [List.mem_append, or_and_right, exists_or, List.mem_cons, exists_eq_left]
    rw [@succeeds_iff _ _ _ c, rejects]
    simp
  | case5 met c stack _ outside => exact absurd (frontier.inside c List.mem_cons_self) outside

end Frontier

/-- From a state of the graph the search never meets a missing state. It finds that the word is
accepted if and only if a run over the word leads from there to an accepting state. -/
theorem exists_search_eq_ok {i : Nat} (lt : i < g.size) (w : List Char) :
    ∃ found, g.search i w = .ok found ∧ g.accepts i w = found ∧
      (found = true ↔ ∃ j, g.Run i w j ∧ (g.state j).accepting = true) := by
  obtain ⟨found, explored, iff⟩ := (frontier_start ⟨w.toArray, rfl⟩ lt).explore_eq_ok
  have runs : found = true ↔ ∃ j, g.Run i w j ∧ (g.state j).accepting = true := by
    simpa [Succeeds, rest] using iff
  refine ⟨found, explored, ?_, runs⟩
  rw [Bool.eq_iff_iff, accepts_iff, runs]
  simp [lt]

/-- Two states on a cycle of epsilon edges, from the second of which `a` leads to an accepting
state. -/
def silentCycle : Graph :=
  let states := ((empty.add false).add false).add true
  ((states.withEdge 0 .epsilon 1).withEdge 1 .epsilon 0).withEdge 1 (.char 'a') 2

theorem exists_search_eq_ok_silentCycle : 0 < silentCycle.size ∧
    ∃ found, silentCycle.search 0 ['a'] = .ok found ∧ silentCycle.accepts 0 ['a'] = found ∧
      (found = true ↔
        ∃ j, silentCycle.Run 0 ['a'] j ∧ (silentCycle.state j).accepting = true) :=
  ⟨by decide, exists_search_eq_ok (by decide) ['a']⟩

end FiniteAutomata.Graph
