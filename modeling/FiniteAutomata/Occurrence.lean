import Std.Data.TreeMap
import Std.Data.TreeSet

/-!
First occurrences in a list. `firstPositions` finds the position at which an element first occurs
(`getElem?_firstPositions`), and `firstRepeat?` the first element that occurred before, of which
there is none if and only if the elements are distinct (`firstRepeat?_eq_none`). `upToRepeat` ends
a list with the first item whose key occurred before. `countP_lt_countP` is for loops that end
because they strike off the elements of a list.
-/

namespace FiniteAutomata

universe u v

/-- A count gets smaller if an element is struck off and none is added. -/
theorem countP_lt_countP {α : Type u} {p q : α → Bool} {xs : List α} (kept : ∀ x, p x → q x) {x : α}
    (member : x ∈ xs) (struck : ¬ p x) (counted : q x) : xs.countP p < xs.countP q := by
  have fewer (xs : List α) : xs.countP p ≤ xs.countP q :=
    List.countP_mono_left fun x _ => kept x
  obtain ⟨before, after, rfl⟩ := List.append_of_mem member
  have first := fewer before
  have rest := fewer after
  rw [List.countP_append, List.countP_append, List.countP_cons_of_neg struck,
    List.countP_cons_of_pos counted]
  omega

theorem nodup_eraseDups {α : Type u} [DecidableEq α] (xs : List α) : xs.eraseDups.Nodup := by
  generalize length : xs.length = n
  induction n using Nat.strongRecOn generalizing xs with
  | ind n ih =>
    cases xs with
    | nil => exact .nil
    | cons x xs =>
      rw [List.eraseDups_cons, List.nodup_cons]
      have shorter := List.length_filter_le (fun y => !y == x) xs
      rw [List.length_cons] at length
      refine ⟨fun again => ?_, ih _ (by omega) _ rfl⟩
      rw [List.mem_eraseDups, List.mem_filter] at again
      simp at again

variable {α : Type u} {β : Type v} [Ord α]

/-- The first position of every element, where the position in `entries` is given and those in
`found` come before. -/
def addPositions (found : Std.TreeMap α Nat) (entries : List (α × Nat)) : Std.TreeMap α Nat :=
  entries.foldl (fun found (x, i) => found.insertIfNew x i) found

/-- The first position of every element of a list. -/
def firstPositions (xs : List α) : Std.TreeMap α Nat := addPositions ∅ xs.zipIdx

/-- The first element of a list that is in `seen` or occurs before. -/
def firstRepeatAfter? (seen : Std.TreeSet α) : List α → Option α
  | [] => none
  | x :: xs => if x ∈ seen then some x else firstRepeatAfter? (seen.insert x) xs

/-- The first element of a list that occurs before. -/
def firstRepeat? (xs : List α) : Option α := firstRepeatAfter? ∅ xs

/-- The items of a list up to the first one whose key is in `seen` or occurs before. -/
def upToRepeatAfter (key : β → α) (seen : Std.TreeSet α) : List β → List β
  | [] => []
  | x :: xs => if key x ∈ seen then [x] else x :: upToRepeatAfter key (seen.insert (key x)) xs

/-- The items of a list up to the first one whose key occurs before. -/
def upToRepeat (key : β → α) (xs : List β) : List β := upToRepeatAfter key ∅ xs

variable [Std.TransOrd α] [Std.LawfulEqOrd α]

theorem getElem?_addPositions [DecidableEq α] (found : Std.TreeMap α Nat)
    (entries : List (α × Nat)) (x : α) :
    (addPositions found entries)[x]? = found[x]?.or ((entries.find? (·.1 = x)).map (·.2)) := by
  unfold addPositions
  induction entries generalizing found with
  | nil => simp
  | cons entry entries ih =>
    obtain ⟨y, i⟩ := entry
    rw [List.foldl_cons, ih, Std.TreeMap.getElem?_insertIfNew, List.find?_cons]
    by_cases same : y = x
    · subst same
      cases known : found[y]? with
      | none => simp [Std.TreeMap.mem_iff_isSome_getElem?, known]
      | some j => simp [Std.TreeMap.mem_iff_isSome_getElem?, known]
    · simp [same]

theorem getElem?_firstPositions [DecidableEq α] (xs : List α) (x : α) :
    (firstPositions xs)[x]? = xs.findIdx? (· = x) := by
  rw [firstPositions, getElem?_addPositions, List.findIdx?_eq_fst_find?_zipIdx]
  simp

theorem firstRepeatAfter?_eq_none {seen : Std.TreeSet α} {xs : List α} :
    firstRepeatAfter? seen xs = none ↔ xs.Nodup ∧ ∀ x ∈ xs, x ∉ seen := by
  induction xs generalizing seen with
  | nil => simp [firstRepeatAfter?]
  | cons x xs ih =>
    rw [firstRepeatAfter?]
    split
    · next h => simp [h]
    · next h =>
      simp only [ih, List.nodup_cons, List.forall_mem_cons, Std.TreeSet.mem_insert,
        Std.LawfulEqCmp.compare_eq_iff_eq]
      grind

theorem firstRepeatAfter?_eq_some {seen : Std.TreeSet α} {xs : List α} {y : α}
    (repeated : firstRepeatAfter? seen xs = some y) : ∃ before after, xs = before ++ y :: after ∧
      before.Nodup ∧ (∀ x ∈ before, x ∉ seen) ∧ (y ∈ seen ∨ y ∈ before) := by
  induction xs generalizing seen with
  | nil => cases repeated
  | cons x xs ih =>
    rw [firstRepeatAfter?] at repeated
    split at repeated
    · next known =>
      obtain rfl := Option.some.inj repeated
      exact ⟨[], xs, rfl, .nil, nofun, .inl known⟩
    · next fresh =>
      obtain ⟨before, after, rfl, distinct, unseen, met⟩ := ih repeated
      simp only [Std.TreeSet.mem_insert, Std.LawfulEqCmp.compare_eq_iff_eq, not_or] at unseen met
      refine ⟨x :: before, after, rfl, ?_, ?_, ?_⟩
      · exact List.nodup_cons.mpr ⟨fun again => (unseen x again).1 rfl, distinct⟩
      · exact List.forall_mem_cons.mpr ⟨fresh, fun z member => (unseen z member).2⟩
      · rcases met with (rfl | known) | member
        · exact .inr List.mem_cons_self
        · exact .inl known
        · exact .inr (List.mem_cons_of_mem x member)

theorem upToRepeatAfter_eq_self {key : β → α} {seen : Std.TreeSet α} {xs : List β}
    (distinct : (xs.map key).Nodup) (fresh : ∀ x ∈ xs, key x ∉ seen) :
    upToRepeatAfter key seen xs = xs := by
  induction xs generalizing seen with
  | nil => rfl
  | cons x xs ih =>
    rw [List.map_cons, List.nodup_cons] at distinct
    rw [List.forall_mem_cons] at fresh
    rw [upToRepeatAfter, if_neg fresh.1, ih distinct.2]
    intro y hy
    rw [Std.TreeSet.mem_insert, Std.LawfulEqCmp.compare_eq_iff_eq]
    rintro (same | known)
    · exact distinct.1 (same ▸ List.mem_map_of_mem hy)
    · exact fresh.2 y hy known

theorem firstRepeat?_eq_none {xs : List α} : firstRepeat? xs = none ↔ xs.Nodup := by
  simp [firstRepeat?, firstRepeatAfter?_eq_none]

/-- The elements before the first repetition are distinct, and it is one of them. -/
theorem firstRepeat?_eq_some {xs : List α} {y : α} (repeated : firstRepeat? xs = some y) :
    ∃ before after, xs = before ++ y :: after ∧ before.Nodup ∧ y ∈ before := by
  obtain ⟨before, after, split, distinct, -, known | member⟩ := firstRepeatAfter?_eq_some repeated
  · exact absurd known Std.TreeSet.not_mem_emptyc
  · exact ⟨before, after, split, distinct, member⟩

end FiniteAutomata
