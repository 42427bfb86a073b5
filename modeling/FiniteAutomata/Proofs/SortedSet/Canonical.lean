import FiniteAutomata.Proofs.SortedSet
import Mathlib.Data.List.Destutter

/-!
Sets are canonical. A set made from a list at once, by inserting its elements one by one, or by any
mixture of the two is the same value, so two sets are equal just if they have the same elements.
Neither the way in which a list is sorted before repetitions are dropped nor the way in which the
place of a new element is searched for makes a difference.
-/

namespace FiniteAutomata.SortedSet

universe u

variable {α : Type u} [Ord α]

/-! ### Inserting one element -/

/-- What a search for `x` in an increasing list may answer: where `x` is, or where it belongs. -/
inductive Located (x : α) (xs : List α) : Except Nat Nat → Prop where
  | found {i : Nat} (here : xs[i]? = some x) : Located x xs (.ok i)
  | absent {before after : List α} (split : xs = before ++ after)
      (less : ∀ y ∈ before, compare y x = .lt) (greater : ∀ y ∈ after, compare x y = .lt) :
      Located x xs (.error before.length)

/-- Adds an element by the answer of a search for it. -/
def addAt (s : SortedSet α) (x : α) : Except Nat Nat → Bool × SortedSet α
  | .ok _ => (false, s)
  | .error i => (true, ⟨s.elements.insertIdx i x⟩)

omit [Ord α] in
theorem insertIdx_length_append (before after : List α) (x : α) :
    (before ++ after).insertIdx before.length x = before ++ x :: after := by
  induction before with
  | nil => rfl
  | cons y before ih => exact congrArg (y :: ·) ih

theorem insertInto_of_greater {x : α} {xs : List α} (greater : ∀ y ∈ xs, compare x y = .lt) :
    insertInto x xs = x :: xs := by
  cases xs with
  | nil => rfl
  | cons y ys => rw [insertInto, greater y List.mem_cons_self]

theorem insertInto_append [Std.OrientedOrd α] {x : α} {before : List α}
    (less : ∀ y ∈ before, compare y x = .lt) (after : List α) :
    insertInto x (before ++ after) = before ++ insertInto x after := by
  induction before with
  | nil => rfl
  | cons y before ih =>
    obtain ⟨first, rest⟩ := List.forall_mem_cons.mp less
    rw [List.cons_append, insertInto, Std.OrientedCmp.gt_iff_lt.mpr first]
    exact congrArg (y :: ·) (ih rest)

theorem Increasing.around {x : α} {before after : List α}
    (increasing : Increasing (before ++ x :: after)) :
    (∀ y ∈ before, compare y x = .lt) ∧ ∀ y ∈ after, compare x y = .lt := by
  obtain ⟨-, behind, across⟩ := List.pairwise_append.mp increasing
  exact ⟨fun y hy => across y hy x List.mem_cons_self, (List.pairwise_cons.mp behind).1⟩

variable [Std.LawfulEqOrd α]

theorem contains_iff {s : SortedSet α} {x : α} : s.contains x = true ↔ x ∈ s.elements := by
  simp [contains]

theorem mem_insertInto {x z : α} {xs : List α} : z ∈ insertInto x xs ↔ z = x ∨ z ∈ xs := by
  induction xs with
  | nil => simp [insertInto]
  | cons y ys ih =>
    rw [insertInto]
    split
    · next => exact List.mem_cons
    · next same =>
      obtain rfl := Std.LawfulEqOrd.eq_of_compare same
      simp
    · next =>
      rw [List.mem_cons, List.mem_cons, ih]
      exact or_left_comm

variable [Std.TransOrd α]

theorem insertInto_of_mem {x : α} {xs : List α} (increasing : Increasing xs) (member : x ∈ xs) :
    insertInto x xs = xs := by
  obtain ⟨before, after, rfl⟩ := List.append_of_mem member
  rw [insertInto_append increasing.around.1, insertInto, Std.ReflOrd.compare_self]

/-- An element belongs between those that are less and those that are greater. -/
theorem exists_split {x : α} {xs : List α} (increasing : Increasing xs) (new : x ∉ xs) :
    ∃ before after, xs = before ++ after ∧ (∀ y ∈ before, compare y x = .lt) ∧
      ∀ y ∈ after, compare x y = .lt := by
  induction xs with
  | nil => exact ⟨[], [], rfl, nofun, nofun⟩
  | cons y ys ih =>
    obtain ⟨first, rest⟩ := List.pairwise_cons.mp increasing
    rw [List.mem_cons, not_or] at new
    obtain ⟨other, new⟩ := new
    cases order : compare x y with
    | lt =>
      refine ⟨[], y :: ys, rfl, nofun, List.forall_mem_cons.mpr ⟨order, fun z hz => ?_⟩⟩
      exact Std.TransCmp.lt_trans order (first z hz)
    | eq => exact absurd (Std.LawfulEqOrd.eq_of_compare order) other
    | gt =>
      obtain ⟨before, after, rfl, less, greater⟩ := ih rest new
      have least := Std.OrientedCmp.gt_iff_lt.mp order
      exact ⟨y :: before, after, rfl, List.forall_mem_cons.mpr ⟨least, less⟩, greater⟩

theorem increasing_insertInto {x : α} {xs : List α} (increasing : Increasing xs) :
    Increasing (insertInto x xs) := by
  by_cases member : x ∈ xs
  · rwa [insertInto_of_mem increasing member]
  · obtain ⟨before, after, rfl, less, greater⟩ := exists_split increasing member
    obtain ⟨front, back, across⟩ := List.pairwise_append.mp increasing
    rw [insertInto_append less, insertInto_of_greater greater]
    refine List.pairwise_append.mpr ⟨front, List.pairwise_cons.mpr ⟨greater, back⟩, ?_⟩
    intro y hy z hz
    rcases List.mem_cons.mp hz with rfl | hz
    · exact less y hy
    · exact across y hy z hz

theorem exists_located {xs : List α} (increasing : Increasing xs) (x : α) :
    ∃ answer, Located x xs answer := by
  by_cases member : x ∈ xs
  · obtain ⟨i, here⟩ := List.mem_iff_getElem?.mp member
    exact ⟨.ok i, .found here⟩
  · obtain ⟨before, after, split, less, greater⟩ := exists_split increasing member
    exact ⟨.error before.length, .absent split less greater⟩

theorem Located.contains_eq {s : SortedSet α} {x : α} {answer : Except Nat Nat}
    (located : Located x s.elements answer) : s.contains x = answer.isOk := by
  cases located with
  | found here => exact contains_iff.mpr (List.mem_of_getElem? here)
  | absent split less greater =>
    apply Bool.eq_false_iff.mpr
    rw [ne_eq, contains_iff, split, List.mem_append]
    rintro (again | again)
    · exact Std.OrientedCmp.not_lt_of_lt (less x again) (less x again)
    · exact Std.OrientedCmp.not_lt_of_lt (greater x again) (greater x again)

/-- Whatever place a search finds, the element is added there unless it is known. -/
theorem Located.add_eq {s : SortedSet α} {x : α} {answer : Except Nat Nat}
    (increasing : Increasing s.elements) (located : Located x s.elements answer) :
    s.add x = s.addAt x answer := by
  rw [add, insert, located.contains_eq]
  cases located with
  | found here =>
    rw [insertInto_of_mem increasing (List.mem_of_getElem? here)]
    rfl
  | absent split less greater =>
    rw [addAt, split, insertInto_append less, insertInto_of_greater greater,
      insertIdx_length_append]
    rfl

/-! ### Sorting and dropping repetitions -/

omit [Std.LawfulEqOrd α] [Std.TransOrd α] in
theorem sort_nil : sort ([] : List α) = [] := by simp [sort]

omit [Std.LawfulEqOrd α] [Std.TransOrd α] in
theorem ofList_nil : ofList ([] : List α) = empty := congrArg mk sort_nil

omit [Std.TransOrd α] in
theorem mem_destutter {x z : α} {xs : List α} :
    z ∈ xs.destutter' (compare · · ≠ .eq) x ↔ z ∈ x :: xs := by
  induction xs generalizing x with
  | nil => rfl
  | cons y ys ih =>
    by_cases same : compare x y = .eq
    · obtain rfl := Std.LawfulEqOrd.eq_of_compare same
      rw [List.destutter'_cons_neg _ (not_not_intro same), ih]
      simp
    · rw [List.destutter'_cons_pos _ same, List.mem_cons, ih, ← List.mem_cons]

theorem increasing_destutter {x : α} {xs : List α}
    (sorted : (x :: xs).Pairwise fun y z => (compare y z).isLE) :
    Increasing (xs.destutter' (compare · · ≠ .eq) x) := by
  -- Only neighbours are compared; that `x` is less than its neighbour and so than all others takes
  -- the order of the list.
  induction xs generalizing x with
  | nil => exact List.pairwise_singleton _ x
  | cons y ys ih =>
    obtain ⟨first, rest⟩ := List.pairwise_cons.mp sorted
    by_cases same : compare x y = .eq
    · rw [List.destutter'_cons_neg _ (not_not_intro same)]
      obtain rfl := Std.LawfulEqOrd.eq_of_compare same
      exact ih rest
    · rw [List.destutter'_cons_pos _ same]
      have less : compare x y = .lt := by
        have order := first y List.mem_cons_self
        cases decided : compare x y <;> simp_all
      refine List.pairwise_cons.mpr ⟨fun z hz => ?_, ih rest⟩
      rcases List.mem_cons.mp (mem_destutter.mp hz) with rfl | hz
      · exact less
      · exact Std.TransCmp.lt_of_lt_of_isLE less ((List.pairwise_cons.mp rest).1 z hz)

/-- Any way of sorting a list and dropping repetitions gives its set. -/
theorem ofList_eq_destutter {xs ys : List α} (perm : ys.Perm xs)
    (sorted : ys.Pairwise fun y z => (compare y z).isLE) :
    ofList xs = ⟨ys.destutter (compare · · ≠ .eq)⟩ := by
  apply congrArg mk
  cases ys with
  | nil => rw [List.nil_perm.mp perm, sort_nil, List.destutter_nil]
  | cons y ys =>
    apply (increasing_sort xs).eq_of_mem_iff (increasing_destutter sorted)
    intro z
    rw [mem_sort, mem_destutter, perm.mem_iff]

/-! ### Sets built step by step -/

/-- The set was built from the elements of the list, in this order. -/
inductive Built : SortedSet α → List α → Prop where
  | empty : Built .empty []
  | ofList (xs : List α) : Built (.ofList xs) xs
  | add {s : SortedSet α} {xs : List α} (x : α) (built : Built s xs) :
      Built (s.add x).2 (xs ++ [x])
  | insertMany {s : SortedSet α} {xs : List α} (ys : List α) (built : Built s xs) :
      Built (s.insertMany ys) (xs ++ ys)

theorem ofList_insert (xs : List α) (x : α) : (ofList xs).insert x = ofList (xs ++ [x]) := by
  apply congrArg mk
  apply (increasing_insertInto (increasing_sort xs)).eq_of_mem_iff (increasing_sort _)
  intro z
  rw [mem_insertInto, mem_sort, mem_sort, List.mem_append, List.mem_singleton, or_comm]

theorem ofList_insertMany (xs ys : List α) :
    (ofList xs).insertMany ys = ofList (xs ++ ys) := by
  induction ys generalizing xs with
  | nil => rw [List.append_nil]; rfl
  | cons y ys ih =>
    show ((ofList xs).insert y).insertMany ys = _
    rw [ofList_insert, ih, List.append_assoc]
    rfl

theorem eq_ofList_of_built {s : SortedSet α} {xs : List α} (built : Built s xs) :
    s = ofList xs := by
  induction built with
  | empty => exact ofList_nil.symm
  | ofList => rfl
  | add x _ ih =>
    rw [ih]
    exact ofList_insert _ x
  | insertMany ys _ ih => rw [ih, ofList_insertMany]

/-- However a set was built, it is the set of the list of elements that went into it: made at once
by any sort, or by insertions one after the other, each at the place that any search finds. An
insertion reports an element as new just if it is, and sets are equal just if they have the same
elements. -/
theorem canonical_of_built {s : SortedSet α} {xs : List α} (built : Built s xs) :
    (s = ofList xs ∧ s = empty.insertMany xs ∧ s = xs.foldl (fun t x => (t.add x).2) empty ∧
      ∀ ys : List α, ys.Perm xs → (ys.Pairwise fun y z => (compare y z).isLE) →
        s = ⟨ys.destutter (compare · · ≠ .eq)⟩) ∧
    Increasing s.elements ∧
    (∀ x, (s.contains x = true ↔ x ∈ xs) ∧ ((s.add x).1 = true ↔ x ∉ xs) ∧
      (∃ answer, Located x s.elements answer) ∧
      ∀ answer, Located x s.elements answer →
        s.contains x = answer.isOk ∧ s.add x = s.addAt x answer) ∧
    ∀ t ys, Built t ys → (s = t ↔ ∀ x, x ∈ xs ↔ x ∈ ys) := by
  have inserted : empty.insertMany xs = ofList xs := by
    rw [← ofList_nil, ofList_insertMany, List.nil_append]
  obtain rfl := eq_ofList_of_built built
  have increasing := increasing_ofList xs
  have known (x : α) : (ofList xs).contains x = true ↔ x ∈ xs := contains_iff.trans mem_ofList
  refine ⟨⟨rfl, inserted.symm, inserted.symm, ?_⟩, increasing, fun x => ?_, ?_⟩
  · exact fun ys perm sorted => ofList_eq_destutter perm sorted
  · refine ⟨known x, ?_, exists_located increasing x, fun answer located => ?_⟩
    · rw [← known, add, Bool.not_eq_true', Bool.not_eq_true]
    · exact ⟨located.contains_eq, located.add_eq increasing⟩
  · intro t ys built'
    rw [eq_ofList_of_built built', ofList_eq_iff]

/-- The names `q5`, `q2` and `q5` at once and then two more, one of them known. -/
theorem canonical_of_built_names :
    let s := ((ofList ["q5", "q2", "q5"]).add "q3").2.insertMany ["q2"]
    let xs := ["q5", "q2", "q5", "q3", "q2"]
    Built s xs ∧ s = ofList xs ∧ s = empty.insertMany xs ∧ Increasing s.elements ∧
      (∀ x, s.contains x = true ↔ x ∈ xs) ∧ (∀ x, (s.add x).1 = true ↔ x ∉ xs) := by
  intro s xs
  have built : Built s xs := .insertMany ["q2"] (.add "q3" (.ofList ["q5", "q2", "q5"]))
  obtain ⟨⟨once, inserted, -⟩, increasing, finds, -⟩ := canonical_of_built built
  exact ⟨built, once, inserted, increasing, fun x => (finds x).1, fun x => (finds x).2.1⟩

end FiniteAutomata.SortedSet
