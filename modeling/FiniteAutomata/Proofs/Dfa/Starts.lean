import FiniteAutomata.Proofs.Dfa.Equivalence
import Mathlib.Order.Nat

/-!
Tables with several starting rows. Words are read from the first of them. Merging gives the mark of
a block to its first row, so that words are then read from the first row that is alike to any
starting row; this need not be the row that they were read from before, nor one alike to it.
-/

namespace FiniteAutomata

namespace Dfa

variable {d m : Dfa} {p : Partition} {i j k s : Nat} {r : Row} {w : List Char}

def isStarting (d : Dfa) (i : Nat) : Bool := (d.rows[i]?).any (·.heading.starts)

/-- No columns tell the row apart from some starting row. -/
def LikeStart (d : Dfa) (j : Nat) : Prop := ∃ i, d.isStarting i = true ∧ d.Alike j i

theorem lt_size_of_isStarting (starting : d.isStarting i = true) : i < d.size := by
  obtain ⟨r, row, -⟩ := (Option.any_eq_true _ _).mp starting
  exact (List.getElem?_eq_some_iff.mp row).1

theorem start?_eq_some_iff : d.start? = some s ↔ IsLeast {i | d.isStarting i = true} s := by
  have starting {i : Nat} (lt : i < d.size) : d.isStarting i = (d.rows[i]).heading.starts := by
    rw [isStarting, List.getElem?_eq_getElem lt, Option.any_some]
  rw [start?, List.findIdx?_eq_some_iff_getElem]
  constructor
  · rintro ⟨lt, first, before⟩
    refine ⟨(starting lt).trans first, fun i (hi : d.isStarting i = true) => ?_⟩
    have lt' := lt_size_of_isStarting hi
    by_contra! earlier
    exact before i earlier ((starting lt').symm.trans hi)
  · rintro ⟨first, least⟩
    have lt := lt_size_of_isStarting first
    refine ⟨lt, (starting lt).symm.trans first, fun i earlier hi => ?_⟩
    have le := least ((starting (Nat.lt_trans earlier lt)).trans hi)
    exact Nat.not_lt_of_le le earlier

theorem exists_start? (starting : d.isStarting i = true) : ∃ s, d.start? = some s :=
  ⟨_, start?_eq_some_iff.mpr (Nat.isLeast_find ⟨i, starting⟩)⟩

theorem accepts_of_start? (start : d.start? = some s) (w : List Char) :
    d.accepts w = d.acceptsFrom s w := by
  rw [accepts, start]
  rfl

theorem accepts_of_start?_eq_none (none : d.start? = none) (w : List Char) :
    d.accepts w = false := by
  rw [accepts, none]
  rfl

theorem likeStart_of_start? (start : d.start? = some s) : d.LikeStart s :=
  ⟨s, (start?_eq_some_iff.mp start).1, fun _ _ => rfl⟩

/-! ### The starting row of a merged table -/

section Merging

variable (classifies : d.Classifies d.Alike p) (respects : d.Respects p) (merged : d.Merged p m)
  (rows : m.rows = d.mergedList p)

include classifies in
theorem anyStarts_blockOf_iff (lt : i < d.size) :
    anyStarts (d.rows[·]?) (p.blockOf i) = true ↔ d.LikeStart i := by
  have alike {j : Nat} (lt' : j < d.size) : j ∈ p.blockOf i ↔ d.Alike i j := by
    rw [← classifies.rep_eq_iff lt lt', ← classifies.of.together_iff lt lt']
    constructor
    · exact fun hj => ⟨_, (classifies.of.blockOf_mem lt).1, (classifies.of.blockOf_mem lt).2, hj⟩
    · rintro ⟨block, member, hi, hj⟩
      rwa [classifies.of.blockOf_eq member hi]
  rw [anyStarts, List.any_eq_true]
  constructor
  · rintro ⟨j, member, starting⟩
    exact ⟨j, starting, (alike (lt_size_of_isStarting starting)).mp member⟩
  · rintro ⟨j, starting, same⟩
    exact ⟨j, (alike (lt_size_of_isStarting starting)).mpr same, starting⟩

include classifies rows in
/-- A merged row starts if its representative is alike to a starting row. -/
theorem isStarting_merged_iff : m.isStarting k = true ↔
    ∃ i, (d.representatives p)[k]? = some i ∧ d.LikeStart i := by
  rw [isStarting, rows, getElem?_mergedList]
  cases position : (d.representatives p)[k]? with
  | none => simp
  | some i =>
    have lt := (mem_representatives.mp (List.mem_of_getElem? position)).1
    obtain ⟨r, row⟩ := exists_row lt
    rw [Option.bind_some, row, Option.map_some, Option.any_some]
    simp only [Option.some.injEq, exists_eq_left']
    exact anyStarts_blockOf_iff classifies lt

include classifies rows in
/-- The first row that is alike to a starting row becomes the first starting row. -/
theorem start?_merged (first : IsLeast {j | d.LikeStart j} j) :
    ∃ k, (d.representatives p)[k]? = some j ∧ m.start? = some k := by
  have ⟨⟨i, starting, same⟩, least⟩ := first
  have lt : j < d.size :=
    Nat.lt_of_le_of_lt (least ⟨i, starting, fun _ _ => rfl⟩) (lt_size_of_isStarting starting)
  have fixed : p.rep j = j := by
    apply Nat.le_antisymm (classifies.of.rep_le lt)
    have alike := (classifies.rep_eq_iff (classifies.of.rep_lt lt) lt).mp (classifies.of.rep_rep lt)
    exact least ⟨i, starting, fun columns inside => (alike columns inside).trans (same columns inside)⟩
  obtain ⟨k, position⟩ := List.mem_iff_getElem?.mp (mem_representatives.mpr ⟨lt, fixed⟩)
  refine ⟨k, position, start?_eq_some_iff.mpr ⟨?_, fun k' starting' => ?_⟩⟩
  · exact (isStarting_merged_iff classifies rows).mpr ⟨j, position, first.1⟩
  · obtain ⟨j', position', like⟩ := (isStarting_merged_iff classifies rows).mp starting'
    have le := least like
    -- Representatives are in ascending order, so an earlier one is a smaller one.
    by_contra! earlier
    have ascending : (d.representatives p).Pairwise (· < ·) := List.pairwise_lt_range.filter _
    obtain ⟨bound, rfl⟩ := List.getElem?_eq_some_iff.mp position
    obtain ⟨bound', rfl⟩ := List.getElem?_eq_some_iff.mp position'
    have less := List.pairwise_iff_getElem.mp ascending k' k bound' bound earlier
    exact Nat.not_lt_of_le le less

include classifies respects merged rows in
theorem accepts_merged (first : IsLeast {j | d.LikeStart j} j) (w : List Char) :
    m.accepts w = d.acceptsFrom j w := by
  obtain ⟨k, position, start⟩ := start?_merged classifies rows first
  obtain ⟨lt, fixed⟩ := mem_representatives.mp (List.mem_of_getElem? position)
  obtain ⟨r, row⟩ := exists_row lt
  have row' : m.rows[k]? = some (d.mergedAt p j r) := by
    rw [rows, getElem?_mergedList, position, Option.bind_some, row, Option.map_some]
  have spot := place_of_mergedAt row fixed row'
  rw [accepts_of_start? start, acceptsFrom_place respects merged lt spot]

include classifies rows in
theorem start?_of_merged (start : m.start? = some k) : ∃ s, d.start? = some s := by
  have starting := (start?_eq_some_iff.mp start).1
  obtain ⟨_, _, i, starting, -⟩ := (isStarting_merged_iff classifies rows).mp starting
  exact exists_start? starting

include classifies respects merged rows in
/-- The merged table accepts the same words just if as many are accepted from the first row that is
alike to a starting row as from the first starting row. -/
theorem accepts_merged_iff : (∀ w, m.accepts w = d.accepts w) ↔
    ∀ s j, d.start? = some s → IsLeast {j | d.LikeStart j} j →
      ∀ w, d.acceptsFrom j w = d.acceptsFrom s w := by
  have accepts {j : Nat} := accepts_merged (j := j) classifies respects merged rows
  constructor
  · intro same s j start first w
    rw [← accepts first, same, accepts_of_start? start]
  · intro same w
    cases start : d.start? with
    | none =>
      have unmarked : m.start? = none := by
        by_contra some
        obtain ⟨k, marked⟩ := Option.ne_none_iff_exists'.mp some
        obtain ⟨s, start'⟩ := start?_of_merged classifies rows marked
        cases start.symm.trans start'
      rw [accepts_of_start?_eq_none start, accepts_of_start?_eq_none unmarked]
    | some s =>
      classical
      have first := Nat.isLeast_find ⟨s, likeStart_of_start? start⟩
      rw [accepts first, same s _ start first, accepts_of_start? start]

end Merging

/-- Merging a closed table succeeds. Words are then read from the first row that is alike to a
starting row. That can change what is accepted, but not if all starting rows are alike. -/
theorem Closed.exists_minimize_accepts (closed : d.Closed) : ∃ m, d.minimize = .ok m ∧
    (∀ j, IsLeast {j | d.LikeStart j} j → ∀ w, m.accepts w = d.acceptsFrom j w) ∧
    ((∀ w, m.accepts w = d.accepts w) ↔
      ∀ s j, d.start? = some s → IsLeast {j | d.LikeStart j} j →
        ∀ w, d.acceptsFrom j w = d.acceptsFrom s w) ∧
    ((∀ i j, d.isStarting i = true → d.isStarting j = true → d.Alike i j) →
      ∀ w, m.accepts w = d.accepts w) := by
  obtain ⟨p, m, made, respects, classifies, merged, rows⟩ := closed.exists_minimize_classifies
  have exactly := accepts_merged_iff classifies respects merged rows
  refine ⟨m, made, fun j => accepts_merged classifies respects merged rows, exactly, fun alike => ?_⟩
  apply exactly.mpr
  rintro s j start ⟨⟨i, starting, same⟩, -⟩ w
  rw [same.acceptsFrom_eq, (alike i s starting (start?_eq_some_iff.mp start).1).acceptsFrom_eq]

/-- Three rows of which the last two start. The first and the last are alike. -/
def twoStarts : Dfa where
  alphabet := ['a']
  rows := [⟨⟨"1", false, true⟩, [none]⟩, ⟨⟨"2", true, false⟩, [some "1"]⟩, ⟨⟨"3", true, true⟩, [none]⟩]
  length_targets := by decide
  nodup_labels := by decide

theorem exists_minimize_accepts_twoStarts : twoStarts.Closed ∧
    ∃ m, twoStarts.minimize = .ok m ∧
      (∀ j, IsLeast {j | twoStarts.LikeStart j} j → ∀ w, m.accepts w = twoStarts.acceptsFrom j w) ∧
      ((∀ w, m.accepts w = twoStarts.accepts w) ↔
        ∀ s j, twoStarts.start? = some s → IsLeast {j | twoStarts.LikeStart j} j →
          ∀ w, twoStarts.acceptsFrom j w = twoStarts.acceptsFrom s w) ∧
      ((∀ i j, twoStarts.isStarting i = true → twoStarts.isStarting j = true →
        twoStarts.Alike i j) → ∀ w, m.accepts w = twoStarts.accepts w) :=
  ⟨by decide, Closed.exists_minimize_accepts (by decide)⟩

/-- Words are read from the second row of `twoStarts`, and after merging from the first. -/
theorem not_accepts_minimize : ¬ ∀ d : Dfa, d.Closed →
    ∃ m, d.minimize = .ok m ∧ ∀ w, m.accepts w = d.accepts w := by
  intro sameWords
  obtain ⟨m, made, same⟩ := sameWords twoStarts (by decide)
  have before : twoStarts.accepts [] = false := by decide
  have after : (twoStarts.minimize.toOption.map (·.accepts [])) = some true := by decide +kernel
  rw [made] at after
  have empty := same []
  rw [before] at empty
  rw [show m.accepts [] = true from Option.some.inj after] at empty
  cases empty

end Dfa

end FiniteAutomata
