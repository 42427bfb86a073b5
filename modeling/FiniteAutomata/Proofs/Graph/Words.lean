import FiniteAutomata.Graph.Lemmas
import FiniteAutomata.Graph.Run
import Mathlib.Computability.Language
import Mathlib.Order.CompletePartialOrder

/-!
The words of runs between two states, as languages. They are the least languages that follow the
edges (`words_le`), and `words_withEdge` says how they grow with one more edge: a new run goes
through the new edge any number of times.
-/

namespace FiniteAutomata

open scoped Computability

/-- The words of an edge: its character, or the empty word. -/
def Symbol.words : Symbol → Language Char
  | epsilon => 1
  | char c => {[c]}

namespace Graph

variable {g : Graph} {i j k : Nat}

def words (g : Graph) (i j : Nat) : Language Char := {w | g.Run i w j}

def Reaches (g : Graph) (i j : Nat) : Prop := ∃ w, g.Run i w j

theorem mem_words {w : List Char} : w ∈ g.words i j ↔ g.Run i w j := Iff.rfl

theorem one_le_words (g : Graph) (i : Nat) : 1 ≤ g.words i i := by
  rintro w rfl
  exact .stop i

theorem words_mul_words_le (g : Graph) (i j k : Nat) :
    g.words i j * g.words j k ≤ g.words i k := by
  rintro _ ⟨v, hv, w, hw, rfl⟩
  exact Run.append hv hw

theorem words_of_mem_targets {a : Symbol} (h : j ∈ g.targets i a) : a.words ≤ g.words i j := by
  cases a with
  | epsilon =>
    rintro w rfl
    exact .silent h (.stop j)
  | char c =>
    rintro w rfl
    exact .read h (.stop j)

/-- Languages that hold the empty word at `k` and follow the edges backwards hold all words of runs
to `k`. -/
theorem words_le (L : Nat → Language Char) (stop : 1 ≤ L k)
    (edge : ∀ i a j, j ∈ g.targets i a → a.words * L j ≤ L i) (i : Nat) : g.words i k ≤ L i := by
  intro w run
  induction run with
  | stop => exact stop rfl
  | silent e _ ih => exact edge _ _ _ e ⟨[], rfl, _, ih stop, rfl⟩
  | read e _ ih => exact edge _ _ _ e ⟨[_], rfl, _, ih stop, rfl⟩

theorem words_mono {g' : Graph} (sub : ∀ i a, g.targets i a ⊆ g'.targets i a) (i j : Nat) :
    g.words i j ≤ g'.words i j := by
  refine words_le (g'.words · j) (one_le_words g' j) (fun i a k e => ?_) i
  calc a.words * g'.words k j
      ≤ g'.words i k * g'.words k j := by grw [words_of_mem_targets (sub i a e)]
    _ ≤ g'.words i j := words_mul_words_le g' i k j

theorem words_congr {g' : Graph} (same : ∀ i a, g'.targets i a = g.targets i a) (i j : Nat) :
    g'.words i j = g.words i j :=
  le_antisymm (words_mono (fun i a _ h => same i a ▸ h) i j)
    (words_mono (fun i a _ h => (same i a).symm ▸ h) i j)

/-! ### One more edge -/

theorem targets_subset_withEdge (hi : i < g.size) (a : Symbol) (hj : j < g.size) (k : Nat)
    (b : Symbol) : g.targets k b ⊆ (g.withEdge i a j).targets k b := by
  rw [targets_withEdge hi a hj]
  split
  · exact List.subset_append_left _ _
  · exact fun _ h => h

theorem mem_targets_withEdge (hi : i < g.size) (a : Symbol) (hj : j < g.size) :
    j ∈ (g.withEdge i a j).targets i a := by
  rw [targets_withEdge hi a hj, if_pos ⟨rfl, rfl⟩]
  exact List.mem_append_right _ List.mem_cons_self

/-- A run either avoids the new edge, or goes up to it, through it, back to it and through it any
number of times, and on from its target. -/
theorem words_withEdge (hi : i < g.size) (a : Symbol) (hj : j < g.size) (p q : Nat) :
    (g.withEdge i a j).words p q =
      g.words p q + g.words p i * a.words * (g.words j i * a.words)∗ * g.words j q := by
  have mono := words_mono (targets_subset_withEdge hi a hj)
  have new := words_of_mem_targets (mem_targets_withEdge hi a hj)
  generalize hg' : g.withEdge i a j = g' at mono new
  have again : (g.words j i * a.words)∗ ≤ g'.words j j := by
    apply kstar_le_of_mul_le_left (one_le_words g' j)
    grw [mono j i, new, words_mul_words_le, words_mul_words_le]
  apply le_antisymm
  · -- The right side follows the edges of the new graph backwards.
    let L p := g.words p q + g.words p i * a.words * (g.words j i * a.words)∗ * g.words j q
    have old (p : Nat) (b : Symbol) (r : Nat) (e : r ∈ g.targets p b) : b.words * L r ≤ L p := by
      have first := words_of_mem_targets e
      have toEnd : b.words * g.words r q ≤ g.words p q := by grw [first, words_mul_words_le]
      have toEdge : b.words * g.words r i ≤ g.words p i := by grw [first, words_mul_words_le]
      simp only [L, mul_add, ← mul_assoc]
      grw [toEnd, toEdge]
    have through : a.words * L j ≤ L i := by
      calc a.words * L j
          = a.words * ((1 + g.words j i * a.words * (g.words j i * a.words)∗) * g.words j q) := by
            rw [add_mul, one_mul]
        _ = 1 * a.words * (g.words j i * a.words)∗ * g.words j q := by
            rw [one_add_mul_kstar, one_mul, mul_assoc]
        _ ≤ g.words i i * a.words * (g.words j i * a.words)∗ * g.words j q := by
            grw [one_le_words g i]
        _ ≤ L i := le_add_left le_rfl
    refine words_le L (le_add_right (one_le_words g q)) (fun p b r e => ?_) p
    rw [← hg', targets_withEdge hi a hj] at e
    split at e
    · next same =>
      obtain ⟨rfl, rfl⟩ := same
      rcases List.mem_append.mp e with e | e
      · exact old p b r e
      · obtain rfl := List.mem_singleton.mp e
        exact through
    · exact old p b r e
  · apply add_le (mono p q)
    grw [mono p i, again, new, mono j q, words_mul_words_le, words_mul_words_le, words_mul_words_le]

theorem words_add (g : Graph) (accepting : Bool) (label : Option Label) (p q : Nat) :
    (g.add accepting label).words p q = g.words p q :=
  words_congr (targets_add g accepting label) p q

theorem words_withAccepting (g : Graph) (i : Nat) (accepting : Bool) (p q : Nat) :
    (g.withAccepting i accepting).words p q = g.words p q :=
  words_congr (targets_withAccepting g i accepting) p q

theorem words_withStarting (g : Graph) (i : Nat) (starting : Bool) (p q : Nat) :
    (g.withStarting i starting).words p q = g.words p q :=
  words_congr (targets_withStarting g i starting) p q

/-! ### States that no edge leaves or enters -/

def NoExit (g : Graph) (i : Nat) : Prop := ∀ a, g.targets i a = []

def NoEntry (g : Graph) (j : Nat) : Prop := ∀ i a, j ∉ g.targets i a

theorem noExit_of_size_le (h : g.size ≤ i) : g.NoExit i := by
  intro a
  rw [targets, state_of_size_le h]
  rfl

theorem noEntry_of_size_le (h : g.size ≤ j) : g.NoEntry j :=
  fun _ _ e => Nat.not_le_of_lt (lt_size_of_mem_targets e) h

theorem NoExit.withEdge (hi : i < g.size) (hj : j < g.size) (exit : g.NoExit k) (ne : k ≠ i)
    (a : Symbol) : (g.withEdge i a j).NoExit k := by
  intro b
  rw [targets_withEdge hi a hj, if_neg fun same => ne same.1, exit]

theorem NoEntry.withEdge (hi : i < g.size) (hj : j < g.size) (entry : g.NoEntry k) (ne : k ≠ j)
    (a : Symbol) : (g.withEdge i a j).NoEntry k := by
  intro p b e
  rw [targets_withEdge hi a hj] at e
  split at e
  · rcases List.mem_append.mp e with e | e
    · exact entry p b e
    · exact ne (List.mem_singleton.mp e)
  · exact entry p b e

theorem words_of_noExit (exit : g.NoExit i) (q : Nat) : g.words i q = if i = q then 1 else 0 := by
  apply le_antisymm
  · intro w run
    cases run with
    | stop => rw [if_pos rfl]; rfl
    | silent e => simp [exit _] at e
    | read e => simp [exit _] at e
  · split
    · next same => exact same ▸ one_le_words g i
    · exact zero_le

theorem words_of_noEntry (entry : g.NoEntry j) (p : Nat) :
    g.words p j = if p = j then 1 else 0 := by
  apply le_antisymm
  · refine words_le (fun p => if p = j then 1 else 0) (by rw [if_pos rfl]) (fun i a k e => ?_) p
    have other : k ≠ j := fun same => entry i a (same ▸ e)
    rw [if_neg other, mul_zero]
    exact zero_le
  · split
    · next same => exact same ▸ one_le_words g p
    · exact zero_le

/-- An epsilon edge from a state that no other edge enters only matters to runs that start with
it. -/
theorem words_withEdge_of_noEntry (hi : i < g.size) (hj : j < g.size) (ne : j ≠ i)
    (entry : g.NoEntry i) (p q : Nat) :
    (g.withEdge i .epsilon j).words p q =
      if p = i then g.words i q + g.words j q else g.words p q := by
  rw [words_withEdge hi _ hj, words_of_noEntry entry, words_of_noEntry entry, if_neg ne]
  split
  · next same => simp [same, Symbol.words]
  · simp

/-- An epsilon edge to a state that no other edge leaves only matters to runs that end with it. -/
theorem words_withEdge_of_noExit (hi : i < g.size) (hj : j < g.size) (ne : j ≠ i)
    (exit : g.NoExit j) (p q : Nat) :
    (g.withEdge i .epsilon j).words p q =
      if q = j then g.words p j + g.words p i else g.words p q := by
  rw [words_withEdge hi _ hj, words_of_noExit exit, words_of_noExit exit, if_neg ne]
  by_cases same : q = j
  · simp [same, Symbol.words]
  · simp [same, Ne.symm same]

/-! ### Reachability -/

theorem Reaches.refl (g : Graph) (i : Nat) : g.Reaches i i := ⟨[], .stop i⟩

theorem Reaches.trans (h : g.Reaches i j) (h' : g.Reaches j k) : g.Reaches i k := by
  obtain ⟨v, h⟩ := h
  obtain ⟨w, h'⟩ := h'
  exact ⟨v ++ w, h.append h'⟩

theorem Reaches.lt_size (h : g.Reaches i j) (hi : i < g.size) : j < g.size := by
  obtain ⟨w, run⟩ := h
  induction run with
  | stop => exact hi
  | silent e _ ih => exact ih (lt_size_of_mem_targets e)
  | read e _ ih => exact ih (lt_size_of_mem_targets e)

theorem words_of_not_reaches (h : ¬ g.Reaches i j) : g.words i j = 0 := by
  ext w
  exact ⟨fun run => absurd ⟨w, run⟩ h, fun none => absurd none (Language.notMem_zero w)⟩

end Graph

end FiniteAutomata
