/-!
Programs that can fail: their steps, and maps over lists. A map over a list fails as the first of
its steps that fails (`error?_mapM`).
-/

namespace FiniteAutomata

universe u v w

variable {ε : Type u} {α : Type v} {β : Type u}

/-- A program succeeds if its first step does and the rest succeeds behind it. -/
theorem bind_eq_ok_iff {x : Except ε α} {f : α → Except ε β} {b : β} :
    x.bind f = .ok b ↔ ∃ a, x = .ok a ∧ f a = .ok b := by
  cases x with
  | error e => exact ⟨nofun, nofun⟩
  | ok a =>
    constructor
    · exact fun made => ⟨a, rfl, made⟩
    · rintro ⟨_, ⟨⟩, made⟩
      exact made

theorem mapError_eq_ok_iff {ε' : Type w} {f : ε → ε'} {x : Except ε α} {a : α} :
    x.mapError f = .ok a ↔ x = .ok a := by
  cases x with
  | error e => exact ⟨nofun, nofun⟩
  | ok a' =>
    show Except.ok a' = _ ↔ _
    rw [Except.ok.injEq, Except.ok.injEq]

/-- What a program fails with, if it fails. -/
def error? : Except ε α → Option ε
  | .error e => some e
  | .ok _ => none

theorem error?_eq_some_iff {x : Except ε α} {e : ε} : error? x = some e ↔ x = .error e := by
  cases x <;> simp [error?]

theorem error?_eq_none_iff {x : Except ε α} : error? x = none ↔ ∃ a, x = .ok a := by
  cases x <;> simp [error?]

/-! ### Maps over lists -/

theorem error?_mapM (f : α → Except ε β) (xs : List α) :
    error? (xs.mapM f) = xs.findSome? fun x => error? (f x) := by
  induction xs with
  | nil => rfl
  | cons x xs ih =>
    rw [List.mapM_cons, List.findSome?_cons, ← ih]
    cases f x with
    | error e => rfl
    | ok y => cases xs.mapM f <;> rfl

theorem mapM_eq_ok {f : α → Except ε β} {g : α → β} {xs : List α}
    (each : ∀ x ∈ xs, f x = .ok (g x)) : xs.mapM f = .ok (xs.map g) := by
  induction xs with
  | nil => rfl
  | cons x xs ih =>
    obtain ⟨first, rest⟩ := List.forall_mem_cons.mp each
    rw [List.mapM_cons, first, ih rest]
    rfl

/-- A map whose results are undone by a function succeeds on exactly the lists that are undone. -/
theorem mapM_eq_ok_iff {f : α → Except ε β} {g : β → α} (undone : ∀ x y, f x = .ok y ↔ g y = x)
    {xs : List α} {ys : List β} : xs.mapM f = .ok ys ↔ ys.map g = xs := by
  induction xs generalizing ys with
  | nil =>
    show Except.ok [] = .ok ys ↔ _
    rw [Except.ok.injEq, List.map_eq_nil_iff, eq_comm]
  | cons x xs ih =>
    rw [List.mapM_cons, List.map_eq_cons_iff]
    constructor
    · intro made
      obtain ⟨y, first, made⟩ := bind_eq_ok_iff.mp made
      obtain ⟨ys', rest, made⟩ := bind_eq_ok_iff.mp made
      cases made
      exact ⟨y, ys', rfl, (undone x y).mp first, ih.mp rest⟩
    · rintro ⟨y, ys', rfl, same, others⟩
      rw [(undone x y).mpr same, ih.mpr others]
      rfl

/-- A map ends with the first failure. -/
theorem mapM_append_cons_eq_error {f : α → Except ε β} {before : List α} {x : α} {e : ε}
    (each : ∀ y ∈ before, ∃ z, f y = .ok z) (failed : f x = .error e) (after : List α) :
    (before ++ x :: after).mapM f = .error e := by
  induction before with
  | nil =>
    rw [List.nil_append, List.mapM_cons, failed]
    rfl
  | cons y before ih =>
    obtain ⟨⟨z, first⟩, rest⟩ := List.forall_mem_cons.mp each
    rw [List.cons_append, List.mapM_cons, first, ih rest]
    rfl

theorem exists_mapM_eq_ok {f : α → Except ε β} {xs : List α} (each : ∀ x ∈ xs, ∃ y, f x = .ok y) :
    ∃ ys, xs.mapM f = .ok ys ∧ ∀ y, y ∈ ys ↔ ∃ x ∈ xs, f x = .ok y := by
  induction xs with
  | nil => exact ⟨[], rfl, by simp⟩
  | cons x xs ih =>
    obtain ⟨⟨y, first⟩, rest⟩ := List.forall_mem_cons.mp each
    obtain ⟨ys, made, members⟩ := ih rest
    refine ⟨y :: ys, ?_, fun z => ?_⟩
    · rw [List.mapM_cons, first, made]
      rfl
    · simp only [List.mem_cons, exists_eq_or_imp, members, first, Except.ok.injEq, @eq_comm _ z y]

end FiniteAutomata
