import FiniteAutomata.SortedSet

/-!
The sets made from lists: their elements are those of the list, in strictly increasing order, and
such a set is determined by its elements.
-/

namespace FiniteAutomata.SortedSet

universe u

variable {α : Type u} [Ord α]

/-- Every element is less than those behind it. -/
def Increasing (xs : List α) : Prop := xs.Pairwise fun x y => compare x y = .lt

theorem Increasing.nodup [Std.ReflOrd α] {xs : List α} (h : Increasing xs) : xs.Nodup := by
  apply h.imp
  rintro x _ less rfl
  rw [Std.ReflOrd.compare_self] at less
  cases less

variable [Std.LawfulEqOrd α]

theorem mem_merge {xs ys : List α} {z : α} : z ∈ merge xs ys ↔ z ∈ xs ∨ z ∈ ys := by
  fun_induction merge xs ys with
  | case1 => simp
  | case2 => simp
  | case3 x xs y ys less ih => simp only [List.mem_cons, ih, or_assoc]
  | case4 x xs y ys same ih =>
    obtain rfl := Std.LawfulEqOrd.eq_of_compare same
    simp only [List.mem_cons, ih]
    grind
  | case5 x xs y ys greater ih =>
    simp only [List.mem_cons, ih]
    grind

theorem mem_sort {xs : List α} {z : α} : z ∈ sort xs ↔ z ∈ xs := by
  fun_induction sort xs with
  | case1 => rfl
  | case2 xs long left right =>
    rw [mem_merge, left, right, ← List.mem_append, List.take_append_drop]

@[simp]
theorem mem_ofList {xs : List α} {z : α} : z ∈ (ofList xs).elements ↔ z ∈ xs :=
  mem_sort

variable [Std.TransOrd α]

theorem increasing_merge {xs ys : List α} (hx : Increasing xs) (hy : Increasing ys) :
    Increasing (merge xs ys) := by
  fun_induction merge xs ys with
  | case1 => exact hy
  | case2 => exact hx
  | case3 x xs y ys less ih =>
    obtain ⟨first, rest⟩ := List.pairwise_cons.mp hx
    have second := (List.pairwise_cons.mp hy).1
    refine List.pairwise_cons.mpr ⟨fun z hz => ?_, ih rest hy⟩
    rcases mem_merge.mp hz with hz | hz
    · exact first z hz
    · rcases List.mem_cons.mp hz with rfl | hz
      · exact less
      · exact Std.TransCmp.lt_trans less (second z hz)
  | case4 x xs y ys same ih =>
    obtain ⟨first, restX⟩ := List.pairwise_cons.mp hx
    obtain ⟨second, restY⟩ := List.pairwise_cons.mp hy
    obtain rfl := Std.LawfulEqOrd.eq_of_compare same
    refine List.pairwise_cons.mpr ⟨fun z hz => ?_, ih restX restY⟩
    rcases mem_merge.mp hz with hz | hz
    · exact first z hz
    · exact second z hz
  | case5 x xs y ys greater ih =>
    have first := (List.pairwise_cons.mp hx).1
    obtain ⟨second, rest⟩ := List.pairwise_cons.mp hy
    have less := Std.OrientedCmp.gt_iff_lt.mp greater
    refine List.pairwise_cons.mpr ⟨fun z hz => ?_, ih hx rest⟩
    rcases mem_merge.mp hz with hz | hz
    · rcases List.mem_cons.mp hz with rfl | hz
      · exact less
      · exact Std.TransCmp.lt_trans less (first z hz)
    · exact second z hz

theorem increasing_sort (xs : List α) : Increasing (sort xs) := by
  fun_induction sort xs with
  | case1 xs short =>
    match xs with
    | [] => exact .nil
    | [x] => exact List.pairwise_singleton _ x
  | case2 xs long left right => exact increasing_merge left right

theorem increasing_ofList (xs : List α) : Increasing (ofList xs).elements :=
  increasing_sort xs

theorem Increasing.eq_of_mem_iff {xs ys : List α} (hx : Increasing xs) (hy : Increasing ys)
    (same : ∀ z, z ∈ xs ↔ z ∈ ys) : xs = ys := by
  have perm : xs.Perm ys := (List.perm_ext_iff_of_nodup hx.nodup hy.nodup).mpr same
  refine perm.eq_of_pairwise (fun x y _ _ less more => ?_) hx hy
  rw [Std.OrientedCmp.gt_iff_lt.mpr less] at more
  cases more

theorem ofList_eq_iff {xs ys : List α} :
    ofList xs = ofList ys ↔ ∀ z, z ∈ xs ↔ z ∈ ys := by
  constructor
  · intro same z
    rw [← mem_ofList, same, mem_ofList]
  · intro same
    apply congrArg mk
    apply (increasing_sort xs).eq_of_mem_iff (increasing_sort ys)
    simpa only [mem_sort] using same

end FiniteAutomata.SortedSet
