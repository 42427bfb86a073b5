import FiniteAutomata.Search.Unseen

/-!
Depth-first search. `preorder` lists the nodes met from a stack of nodes, and the successors of a
node from left to right before what lies below it on the stack. `mem_preorder_iff` says that these
are the nodes to which a way leads from the stack, and `nodup_preorder` that none is listed twice.
`visitFresh` keeps the stack short, and `collect` asks something of every node that it meets; both
meet the same nodes in the same order (`toList_visitFresh`, `collect_eq`).
-/

namespace FiniteAutomata.Search

/-! ### Ways -/

/-- `y` follows from `x` by successors, all nodes on the way being in `unseen`. -/
inductive Within (next : Nat → List Nat) (unseen : Unseen) : Nat → Nat → Prop where
  | here {x : Nat} : x ∈ unseen → Within next unseen x x
  | step {x y z : Nat} : x ∈ unseen → y ∈ next x → Within next unseen y z → Within next unseen x z

theorem Within.mono {next : Nat → List Nat} {unseen wider : Unseen}
    (sub : ∀ x, x ∈ unseen → x ∈ wider) {x y : Nat} (h : Within next unseen x y) :
    Within next wider x y := by
  induction h with
  | here hx => exact .here (sub _ hx)
  | step hx hy _ ih => exact .step (sub _ hx) hy ih

/-! ### The search -/

/-- Visits the nodes of the stack and all that follow from them. Only unseen nodes are visited; a
visited node is unseen no longer and joins the nodes met before. -/
def visit (next : Nat → List Nat) (unseen : Unseen) (stack : List Nat) (met : Array Nat) :
    Array Nat :=
  match stack with
  | [] => met
  | x :: rest =>
    if x ∈ unseen then visit next (unseen.erase x) (next x ++ rest) (met.push x)
    else visit next unseen rest met
termination_by unseen.weight (fun x => (next x).length + 1) + stack.length
decreasing_by
  · next h =>
    have := unseen.weight_erase (fun x => (next x).length + 1) h
    simp only [List.length_append, List.length_cons]
    omega
  · simp only [List.length_cons]
    omega

/-- The nodes that a visit of the stack meets, in the order in which it meets them. -/
def preorder (next : Nat → List Nat) (unseen : Unseen) (stack : List Nat) : List Nat :=
  (visit next unseen stack #[]).toList

theorem visit_append (next : Nat → List Nat) (unseen : Unseen) (stack : List Nat)
    (before met : Array Nat) :
    visit next unseen stack (before ++ met) = before ++ visit next unseen stack met := by
  fun_induction visit next unseen stack met with
  | case1 => rw [visit]
  | case2 unseen met x rest hx ih => rw [visit, if_pos hx, ← Array.append_push, ih]
  | case3 unseen met x rest hx ih => rw [visit, if_neg hx, ih]

@[simp]
theorem preorder_nil (next : Nat → List Nat) (unseen : Unseen) : preorder next unseen [] = [] := by
  rw [preorder, visit]

theorem preorder_cons_of_mem {next : Nat → List Nat} {unseen : Unseen} {x : Nat} {rest : List Nat}
    (h : x ∈ unseen) :
    preorder next unseen (x :: rest) = x :: preorder next (unseen.erase x) (next x ++ rest) := by
  have split := visit_append next (unseen.erase x) (next x ++ rest) #[x] #[]
  rw [Array.append_empty] at split
  rw [preorder, visit, if_pos h, Array.push_empty, split, Array.toList_append]
  rfl

theorem preorder_cons_of_not_mem {next : Nat → List Nat} {unseen : Unseen} {x : Nat}
    {rest : List Nat} (h : x ∉ unseen) :
    preorder next unseen (x :: rest) = preorder next unseen rest := by
  rw [preorder, visit, if_neg h, preorder]

/-- A property of stacks holds of every stack if it holds of the empty one and passes to each other
stack from the stack with which the search goes on. -/
theorem preorder_induction (next : Nat → List Nat) {motive : Unseen → List Nat → Prop}
    (nil : ∀ unseen, motive unseen [])
    (unseen : ∀ unseen x rest, x ∈ unseen → motive (unseen.erase x) (next x ++ rest) →
      motive unseen (x :: rest))
    (seen : ∀ unseen x rest, x ∉ unseen → motive unseen rest → motive unseen (x :: rest))
    (start : Unseen) (stack : List Nat) : motive start stack := by
  fun_induction visit next start stack #[] with
  | case1 => exact nil _
  | case2 _ _ _ _ hx ih => exact unseen _ _ _ hx ih
  | case3 _ _ _ _ hx ih => exact seen _ _ _ hx ih

theorem mem_unseen_of_mem_preorder {next : Nat → List Nat} {unseen : Unseen} {stack : List Nat}
    {y : Nat} (h : y ∈ preorder next unseen stack) : y ∈ unseen := by
  induction unseen, stack using preorder_induction next with
  | nil => simp at h
  | unseen unseen x rest hx ih =>
    rw [preorder_cons_of_mem hx] at h
    rcases List.mem_cons.mp h with rfl | h
    · exact hx
    · exact (Unseen.mem_erase.mp (ih h)).2
  | seen unseen x rest hx ih => exact ih (preorder_cons_of_not_mem hx ▸ h)

theorem nodup_preorder (next : Nat → List Nat) (unseen : Unseen) (stack : List Nat) :
    (preorder next unseen stack).Nodup := by
  induction unseen, stack using preorder_induction next with
  | nil => simp
  | unseen unseen x rest hx ih =>
    rw [preorder_cons_of_mem hx, List.nodup_cons]
    exact ⟨fun h => (Unseen.mem_erase.mp (mem_unseen_of_mem_preorder h)).1 rfl, ih⟩
  | seen unseen x rest hx ih => rwa [preorder_cons_of_not_mem hx]

/-- A way that avoids `x`, or the end of it after its last visit to `x`. -/
theorem Within.avoid {next : Nat → List Nat} {unseen : Unseen} (x : Nat) {s y : Nat}
    (h : Within next unseen s y) :
    y = x ∨ Within next (unseen.erase x) s y ∨ ∃ t ∈ next x, Within next (unseen.erase x) t y := by
  induction h with
  | @here s hs =>
    by_cases e : s = x
    · exact .inl e
    · exact .inr (.inl (.here (Unseen.mem_erase.mpr ⟨e, hs⟩)))
  | @step s t y hs ht _ ih =>
    rcases ih with rfl | h | h
    · exact .inl rfl
    · by_cases e : s = x
      · exact .inr (.inr ⟨t, e ▸ ht, h⟩)
      · exact .inr (.inl (.step (Unseen.mem_erase.mpr ⟨e, hs⟩) ht h))
    · exact .inr (.inr h)

theorem Within.start_mem {next : Nat → List Nat} {unseen : Unseen} {x y : Nat}
    (h : Within next unseen x y) : x ∈ unseen := by
  cases h <;> assumption

theorem mem_preorder_iff {next : Nat → List Nat} {unseen : Unseen} {stack : List Nat} {y : Nat} :
    y ∈ preorder next unseen stack ↔ ∃ s ∈ stack, Within next unseen s y := by
  induction unseen, stack using preorder_induction next with
  | nil => simp
  | unseen unseen x rest hx ih =>
    have wider : ∀ z, z ∈ unseen.erase x → z ∈ unseen := fun z hz => (Unseen.mem_erase.mp hz).2
    rw [preorder_cons_of_mem hx, List.mem_cons, ih]
    constructor
    · rintro (rfl | ⟨s, hs, h⟩)
      · exact ⟨y, List.mem_cons_self, .here hx⟩
      · rcases List.mem_append.mp hs with hs | hs
        · exact ⟨x, List.mem_cons_self, .step hx hs (h.mono wider)⟩
        · exact ⟨s, List.mem_cons_of_mem _ hs, h.mono wider⟩
    · rintro ⟨s, hs, h⟩
      rcases h.avoid x with rfl | h' | ⟨t, ht, h'⟩
      · exact .inl rfl
      · rcases List.mem_cons.mp hs with rfl | hs
        · exact absurd rfl (Unseen.mem_erase.mp h'.start_mem).1
        · exact .inr ⟨s, List.mem_append.mpr (.inr hs), h'⟩
      · exact .inr ⟨t, List.mem_append.mpr (.inl ht), h'⟩
  | seen unseen x rest hx ih =>
    rw [preorder_cons_of_not_mem hx, ih]
    constructor
    · rintro ⟨s, hs, h⟩
      exact ⟨s, List.mem_cons_of_mem _ hs, h⟩
    · rintro ⟨s, hs, h⟩
      rcases List.mem_cons.mp hs with rfl | hs
      · exact absurd h.start_mem hx
      · exact ⟨s, hs, h⟩

/-- What follows from the nodes in front of a stack is met before the rest of the stack, which then
meets what they leave unseen. -/
theorem preorder_append (next : Nat → List Nat) (unseen : Unseen) (stack rest : List Nat) :
    preorder next unseen (stack ++ rest) = preorder next unseen stack ++
      preorder next (unseen.eraseAll (preorder next unseen stack)) rest := by
  induction unseen, stack using preorder_induction next with
  | nil unseen => rw [preorder_nil]; rfl
  | unseen unseen x stack hx ih =>
    rw [List.append_assoc] at ih
    rw [List.cons_append, preorder_cons_of_mem hx, preorder_cons_of_mem hx, ih, List.cons_append,
      Unseen.eraseAll_cons]
  | seen unseen x stack hx ih =>
    rw [List.cons_append, preorder_cons_of_not_mem hx, preorder_cons_of_not_mem hx, ih]

/-- Nodes that are not unseen may be left out of the stack. -/
theorem preorder_filter (next : Nat → List Nat) {unseen : Unseen} {keep : Nat → Bool}
    (kept : ∀ x ∈ unseen, keep x) (stack : List Nat) :
    preorder next unseen (stack.filter keep) = preorder next unseen stack := by
  induction stack generalizing unseen with
  | nil => rfl
  | cons x stack ih =>
    cases hx : keep x with
    | false =>
      have seen : x ∉ unseen := fun member => by simp [kept x member] at hx
      rw [List.filter_cons_of_neg (by simp [hx]), ih kept, preorder_cons_of_not_mem seen]
    | true =>
      rw [List.filter_cons_of_pos hx, ← List.singleton_append, ← List.singleton_append (l := stack),
        preorder_append, preorder_append next unseen [x] stack, ih]
      exact fun y member => kept y ((Unseen.mem_eraseAll.mp member).2)

/-! ### Searches that prune or fail -/

universe u v

/-- Visits nodes in the same way, but puts a successor on the stack only if it is still unseen. -/
def visitFresh (next : Nat → List Nat) (unseen : Unseen) (stack : List Nat) (met : Array Nat) :
    Array Nat :=
  match stack with
  | [] => met
  | x :: rest =>
    if x ∈ unseen then
      let left := unseen.erase x
      visitFresh next left ((next x).filter (· ∈ left) ++ rest) (met.push x)
    else visitFresh next unseen rest met
termination_by unseen.weight (fun x => (next x).length + 1) + stack.length
decreasing_by
  · next h =>
    have := unseen.weight_erase (fun x => (next x).length + 1) h
    have := List.length_filter_le (· ∈ unseen.erase x) (next x)
    simp only [List.length_append, List.length_cons]
    omega
  · simp only [List.length_cons]
    omega

/-- Visits the nodes of the stack and all that follow from them, and adds what `ask` gives for every
node met to the answers before. The search ends with the first node for which `ask` fails. -/
def collect {ε : Type u} {β : Type v} (next : Nat → List Nat) (ask : Nat → Except ε β)
    (unseen : Unseen) (stack : List Nat) (answers : Array β) : Except ε (Array β) :=
  match stack with
  | [] => .ok answers
  | x :: rest =>
    if x ∈ unseen then
      match ask x with
      | .ok answer => collect next ask (unseen.erase x) (next x ++ rest) (answers.push answer)
      | .error e => .error e
    else collect next ask unseen rest answers
termination_by unseen.weight (fun x => (next x).length + 1) + stack.length
decreasing_by
  · next h =>
    have := unseen.weight_erase (fun x => (next x).length + 1) h
    simp only [List.length_append, List.length_cons]
    omega
  · simp only [List.length_cons]
    omega

theorem toList_visitFresh (next : Nat → List Nat) (unseen : Unseen) (stack : List Nat)
    (met : Array Nat) :
    (visitFresh next unseen stack met).toList = met.toList ++ preorder next unseen stack := by
  fun_induction visitFresh next unseen stack met with
  | case1 => rw [preorder_nil, List.append_nil]
  | case2 unseen met x rest hx left ih =>
    have kept : ∀ y ∈ left, decide (y ∈ left) = true := fun _ member => decide_eq_true member
    rw [preorder_append, preorder_filter next kept, ← preorder_append] at ih
    rw [ih, Array.toList_push, List.append_assoc, List.singleton_append, preorder_cons_of_mem hx]
  | case3 unseen met x rest hx ih => rw [ih, preorder_cons_of_not_mem hx]

theorem collect_eq {ε : Type u} {β : Type v} (next : Nat → List Nat) (ask : Nat → Except ε β)
    (unseen : Unseen) (stack : List Nat) (answers : Array β) :
    (collect next ask unseen stack answers).map Array.toList =
      ((preorder next unseen stack).mapM ask).map (answers.toList ++ ·) := by
  fun_induction collect next ask unseen stack answers with
  | case1 unseen answers =>
    rw [preorder_nil]
    show Except.ok answers.toList = .ok (answers.toList ++ [])
    rw [List.append_nil]
  | case2 unseen answers x rest hx answer asked ih =>
    rw [ih, preorder_cons_of_mem hx, List.mapM_cons, asked]
    cases (preorder next (unseen.erase x) (next x ++ rest)).mapM ask with
    | error e => rfl
    | ok more =>
      show Except.ok ((answers.push answer).toList ++ more) = .ok (answers.toList ++ answer :: more)
      rw [Array.toList_push, List.append_assoc, List.singleton_append]
  | case3 unseen answers x rest hx e asked =>
    rw [preorder_cons_of_mem hx, List.mapM_cons, asked]
    rfl
  | case4 unseen answers x rest hx ih => rw [ih, preorder_cons_of_not_mem hx]

end FiniteAutomata.Search
