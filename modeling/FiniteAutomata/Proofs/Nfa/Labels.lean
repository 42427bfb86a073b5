import FiniteAutomata.Nfa.Tabulated
import FiniteAutomata.Proofs.Graph.Reachability

/-!
Automatic labelling only adds labels. Afterwards every reachable state has one: its own, or a number
whose text was not in the graph before.
-/

namespace FiniteAutomata

/-! ### Free numbers -/

section FreeNumbers

variable {taken : List String} {last count n : Nat}

/-- Numbers whose texts are not taken, each the first after the one before it. The first of them
comes after `last`. -/
def freeNumbers (taken : List String) (last : Nat) : (count : Nat) → List Nat
  | 0 => []
  | count + 1 => nextFree taken last :: freeNumbers taken (nextFree taken last) count

theorem lt_nextFree (taken : List String) (last : Nat) : last < nextFree taken last := by
  fun_induction nextFree taken last with
  | case1 last _ ih => omega
  | case2 last _ => exact Nat.lt_succ_self last

theorem nextFree_not_taken (taken : List String) (last : Nat) :
    (nextFree taken last).repr ∉ taken := by
  fun_induction nextFree taken last with
  | case1 last _ ih => exact ih
  | case2 last free => exact free

theorem length_freeNumbers (taken : List String) (last count : Nat) :
    (freeNumbers taken last count).length = count := by
  induction count generalizing last with
  | zero => rfl
  | succ count ih => rw [freeNumbers, List.length_cons, ih]

theorem lt_of_mem_freeNumbers (member : n ∈ freeNumbers taken last count) : last < n := by
  induction count generalizing last with
  | zero => cases member
  | succ count ih =>
    have above := lt_nextFree taken last
    rcases List.mem_cons.mp member with rfl | member
    · exact above
    · exact above.trans (ih member)

theorem freeNumbers_not_taken (member : n ∈ freeNumbers taken last count) : n.repr ∉ taken := by
  induction count generalizing last with
  | zero => cases member
  | succ count ih =>
    rcases List.mem_cons.mp member with rfl | member
    · exact nextFree_not_taken taken last
    · exact ih member

theorem nodup_freeNumbers (taken : List String) (last count : Nat) :
    (freeNumbers taken last count).Nodup := by
  induction count generalizing last with
  | zero => exact List.nodup_nil
  | succ count ih =>
    exact List.nodup_cons.mpr ⟨fun again => Nat.lt_irrefl _ (lt_of_mem_freeNumbers again), ih _⟩

end FreeNumbers

namespace Graph

variable {g : Graph} {i j : Nat}

/-- Labels the states of a list with the numbers of another, as far as both go. -/
def withNumbers (g : Graph) (states numbers : List Nat) : Graph :=
  (states.zip numbers).foldl (fun g (i, n) => g.withLabel i (.number n)) g

theorem state_withLabel_of_ne (ne : j ≠ i) (label : Label) :
    (g.withLabel i label).state j = g.state j := by
  rw [withLabel, state_update, if_neg fun same => ne same.1]

theorem withNumbers_cons (g : Graph) (i n : Nat) (states numbers : List Nat) :
    g.withNumbers (i :: states) (n :: numbers) =
      (g.withLabel i (.number n)).withNumbers states numbers := rfl

theorem withNumbers_nil_right (g : Graph) (states : List Nat) : g.withNumbers states [] = g := by
  rw [withNumbers, List.zip_nil_right, List.foldl_nil]

/-- What no label changes, the numbers of many states do not change. -/
theorem withNumbers_induction {P : Graph → Prop} (label : ∀ g i l, P g → P (g.withLabel i l))
    (start : P g) (states numbers : List Nat) : P (g.withNumbers states numbers) := by
  induction states generalizing g numbers with
  | nil => exact start
  | cons i states ih =>
    cases numbers with
    | nil => rwa [withNumbers_nil_right]
    | cons n numbers => exact ih (label g i _ start) numbers

@[simp]
theorem targets_withNumbers (g : Graph) (states numbers : List Nat) (i : Nat) (a : Symbol) :
    (g.withNumbers states numbers).targets i a = g.targets i a := by
  apply withNumbers_induction (P := fun g' => g'.targets i a = g.targets i a) _ rfl
  intro g' j l same
  rw [targets_withLabel, same]

theorem label_withNumbers_of_not_mem {states : List Nat} (other : i ∉ states)
    (numbers : List Nat) :
    ((g.withNumbers states numbers).state i).label = (g.state i).label := by
  induction states generalizing g numbers with
  | nil => rfl
  | cons k states ih =>
    rw [List.mem_cons, not_or] at other
    cases numbers with
    | nil => rw [withNumbers_nil_right]
    | cons n numbers => rw [withNumbers_cons, ih other.2, state_withLabel_of_ne other.1]

/-- States in a list without repetition get the numbers at their positions. -/
theorem label_withNumbers {states numbers : List Nat} (distinct : states.Nodup)
    (inside : ∀ i ∈ states, i < g.size) {k n : Nat} (state : states[k]? = some i)
    (number : numbers[k]? = some n) :
    ((g.withNumbers states numbers).state i).label = some (.number n) := by
  induction states generalizing g numbers k with
  | nil => cases state
  | cons j states ih =>
    obtain ⟨first, rest⟩ := List.nodup_cons.mp distinct
    obtain ⟨lt, below⟩ := List.forall_mem_cons.mp inside
    cases numbers with
    | nil => cases number
    | cons m numbers =>
      rw [withNumbers_cons]
      cases k with
      | zero =>
        obtain rfl : j = i := Option.some.inj state
        obtain rfl : m = n := Option.some.inj number
        rw [label_withNumbers_of_not_mem first, state_withLabel lt, if_pos rfl]
      | succ k =>
        apply ih rest _ state number
        simpa using below

theorem mem_labelTexts {text : String} : text ∈ g.labelTexts ↔
    ∃ i l, (g.state i).label = some l ∧ l.text = text := by
  rw [labelTexts, List.mem_filterMap]
  constructor
  · rintro ⟨s, member, written⟩
    obtain ⟨label, known, rfl⟩ := Option.map_eq_some_iff.mp written
    obtain ⟨i, lt, rfl⟩ := Array.mem_iff_getElem.mp (Array.mem_toList_iff.mp member)
    exact ⟨i, label, by rw [state_of_lt lt, known], rfl⟩
  · rintro ⟨i, label, known, rfl⟩
    rcases Nat.lt_or_ge i g.size with lt | beyond
    · rw [state_of_lt lt] at known
      exact ⟨g.states[i], Array.getElem_mem_toList lt, by rw [known, Option.map_some]⟩
    · rw [state_of_size_le beyond] at known
      cases known

theorem text_mem_labelTexts {label : Label} (known : (g.state i).label = some label) :
    label.text ∈ g.labelTexts :=
  mem_labelTexts.mpr ⟨i, label, known, rfl⟩

/-- The states of a list without repetition that have no label get the free numbers in order. -/
theorem withFreeNumbers_eq {states : List Nat} (distinct : states.Nodup) (taken : List String)
    (g : Graph) (last : Nat) :
    g.withFreeNumbers taken last states =
      let unlabelled := states.filter fun i => (g.state i).label.isNone
      g.withNumbers unlabelled (freeNumbers taken last unlabelled.length) := by
  induction states generalizing g last with
  | nil => rfl
  | cons i states ih =>
    obtain ⟨first, rest⟩ := List.nodup_cons.mp distinct
    rw [withFreeNumbers]
    cases known : (g.state i).label with
    | some label =>
      rw [List.filter_cons_of_neg (by simp [known])]
      exact ih rest g last
    | none =>
      have others (l : Label) : states.filter (fun j => ((g.withLabel i l).state j).label.isNone) =
          states.filter fun j => (g.state j).label.isNone := by
        apply List.filter_congr
        intro j member
        rw [state_withLabel_of_ne (ne_of_mem_of_not_mem member first)]
      rw [List.filter_cons_of_pos (by simp [known])]
      dsimp only
      rw [ih rest, others]
      rfl

end Graph

attribute [ext] Nfa

namespace Nfa

variable {a : Nfa} {i j : Nat}

/-- The labels of reachable states have different texts without commas. -/
structure PlainLabels (a : Nfa) : Prop where
  distinct : ∀ i j l m, a.graph.Reaches a.input i → a.graph.Reaches a.input j →
    (a.graph.state i).label = some l → (a.graph.state j).label = some m → l.text = m.text → i = j
  noComma : ∀ i l, a.graph.Reaches a.input i → (a.graph.state i).label = some l →
    ',' ∉ l.text.toList

/-! ### The labelled automaton -/

/-- The reachable states without a label. -/
def unlabelled (a : Nfa) : List Nat := a.states.filter fun i => (a.graph.state i).label.isNone

theorem graph_labelled (a : Nfa) : a.labelled.graph =
    a.graph.withNumbers a.unlabelled (freeNumbers a.graph.labelTexts 0 a.unlabelled.length) :=
  Graph.withFreeNumbers_eq a.nodup_states _ a.graph 0

theorem run_labelled {w : List Char} : a.labelled.graph.Run i w j ↔ a.graph.Run i w j := by
  have words : a.labelled.graph.words i j = a.graph.words i j := by
    rw [graph_labelled]
    exact Graph.words_congr (Graph.targets_withNumbers _ _ _) i j
  rw [← Graph.mem_words, words, Graph.mem_words]

theorem reaches_labelled : a.labelled.graph.Reaches i j ↔ a.graph.Reaches i j :=
  exists_congr fun _ => run_labelled

theorem mem_unlabelled : i ∈ a.unlabelled ↔
    a.graph.Reaches a.input i ∧ (a.graph.state i).label = none := by
  rw [unlabelled, List.mem_filter, mem_states, Option.isNone_iff_eq_none]

theorem nodup_unlabelled (a : Nfa) : a.unlabelled.Nodup := a.nodup_states.filter _

/-- The `k`th unlabelled state gets the `k`th free number. -/
def Numbered (a : Nfa) (i n : Nat) : Prop :=
  ∃ k : Nat, a.unlabelled[k]? = some i ∧
    (freeNumbers a.graph.labelTexts 0 a.unlabelled.length)[k]? = some n

theorem label_labelled_of_not_mem (other : i ∉ a.unlabelled) :
    (a.labelled.graph.state i).label = (a.graph.state i).label := by
  rw [graph_labelled, Graph.label_withNumbers_of_not_mem other]

theorem exists_number {k : Nat} (state : a.unlabelled[k]? = some i) :
    ∃ n, (freeNumbers a.graph.labelTexts 0 a.unlabelled.length)[k]? = some n := by
  have bound := (List.getElem?_eq_some_iff.mp state).1
  rw [← length_freeNumbers a.graph.labelTexts 0 a.unlabelled.length] at bound
  exact ⟨_, List.getElem?_eq_getElem bound⟩

theorem label_labelled_of_getElem? {k n : Nat} (state : a.unlabelled[k]? = some i)
    (number : (freeNumbers a.graph.labelTexts 0 a.unlabelled.length)[k]? = some n) :
    (a.labelled.graph.state i).label = some (.number n) := by
  rw [graph_labelled]
  apply Graph.label_withNumbers a.nodup_unlabelled _ state number
  intro j hj
  exact (mem_unlabelled.mp hj).1.lt_size a.input_lt

theorem label_labelled_of_mem (member : i ∈ a.unlabelled) :
    ∃ n, (a.labelled.graph.state i).label = some (.number n) ∧ a.Numbered i n := by
  obtain ⟨k, state⟩ := List.mem_iff_getElem?.mp member
  obtain ⟨n, number⟩ := exists_number state
  exact ⟨n, label_labelled_of_getElem? state number, k, state, number⟩

theorem label_labelled (reach : a.graph.Reaches a.input i) :
    ∃ label, (a.labelled.graph.state i).label = some label ∧
      ((a.graph.state i).label = some label ∨ ∃ n, label = .number n ∧ a.Numbered i n) := by
  cases known : (a.graph.state i).label with
  | some label =>
    refine ⟨label, ?_, .inl rfl⟩
    have other : i ∉ a.unlabelled := fun member => by
      rw [(mem_unlabelled.mp member).2] at known
      cases known
    exact (label_labelled_of_not_mem other).trans known
  | none =>
    obtain ⟨n, label, numbered⟩ := label_labelled_of_mem (mem_unlabelled.mpr ⟨reach, known⟩)
    exact ⟨.number n, label, .inr ⟨n, rfl, numbered⟩⟩

theorem Numbered.not_mem_labelTexts {n : Nat} (numbered : a.Numbered i n) :
    n.repr ∉ a.graph.labelTexts := by
  obtain ⟨k, -, number⟩ := numbered
  exact freeNumbers_not_taken (List.mem_of_getElem? number)

theorem Numbered.inj {n : Nat} (hi : a.Numbered i n) (hj : a.Numbered j n) : i = j := by
  obtain ⟨k, state, number⟩ := hi
  obtain ⟨k', state', number'⟩ := hj
  have same : k = k' := by
    obtain ⟨lt, value⟩ := List.getElem?_eq_some_iff.mp number
    obtain ⟨lt', value'⟩ := List.getElem?_eq_some_iff.mp number'
    have distinct := nodup_freeNumbers a.graph.labelTexts 0 a.unlabelled.length
    exact (distinct.getElem_inj_iff).mp (value.trans value'.symm)
  subst same
  exact Option.some.inj (state.symm.trans state')

theorem unlabelled_labelled (a : Nfa) : a.labelled.unlabelled = [] := by
  rw [List.eq_nil_iff_forall_not_mem]
  intro i member
  obtain ⟨reach, none⟩ := mem_unlabelled.mp member
  obtain ⟨label, known, -⟩ := label_labelled (reaches_labelled.mp reach)
  rw [none] at known
  cases known

theorem labelled_labelled (a : Nfa) : a.labelled.labelled = a.labelled := by
  have graph : a.labelled.labelled.graph = a.labelled.graph := by
    rw [graph_labelled, unlabelled_labelled]
    rfl
  exact Nfa.ext graph rfl rfl

theorem make_labelled (a : Nfa) : Tabulated.make ⟨a.labelled, none⟩ = Tabulated.make ⟨a, none⟩ := by
  rw [Tabulated.make, Tabulated.make, labelled_labelled]

/-! ### Texts -/

theorem comma_not_mem_repr (n : Nat) : ',' ∉ n.repr.toList := by
  intro comma
  rw [Nat.toList_repr] at comma
  have digit := Nat.isDigit_of_mem_toDigits (by decide) (by decide) comma
  exact absurd digit (by decide)

theorem noComma_labelled (plain : a.PlainLabels) (reach : a.graph.Reaches a.input i)
    {l : Label} (known : (a.labelled.graph.state i).label = some l) : ',' ∉ l.text.toList := by
  obtain ⟨label, known', preset | ⟨n, rfl, -⟩⟩ := label_labelled reach
  · obtain rfl := Option.some.inj (known.symm.trans known')
    exact plain.noComma i _ reach preset
  · obtain rfl := Option.some.inj (known.symm.trans known')
    exact comma_not_mem_repr n

/-- The text of a number is that of no other label. -/
theorem text_ne_of_mem_unlabelled (member : i ∈ a.unlabelled) (ne : j ≠ i) {l m : Label}
    (first : (a.labelled.graph.state i).label = some l)
    (second : (a.labelled.graph.state j).label = some m) : l.text ≠ m.text := by
  intro same
  obtain ⟨n, label, numbered⟩ := label_labelled_of_mem member
  obtain rfl := Option.some.inj (first.symm.trans label)
  by_cases listed : j ∈ a.unlabelled
  · obtain ⟨n', label', numbered'⟩ := label_labelled_of_mem listed
    obtain rfl := Option.some.inj (second.symm.trans label')
    obtain rfl : n = n' := Nat.repr_injective same
    exact ne (numbered'.inj numbered)
  · rw [label_labelled_of_not_mem listed] at second
    have taken := Graph.text_mem_labelTexts second
    rw [← same] at taken
    exact numbered.not_mem_labelTexts taken

/-- Only labels that were there before can have the same text. -/
theorem preset_of_text_eq (ne : i ≠ j) {l m : Label}
    (first : (a.labelled.graph.state i).label = some l)
    (second : (a.labelled.graph.state j).label = some m) (same : l.text = m.text) :
    (a.graph.state i).label = some l ∧ (a.graph.state j).label = some m := by
  have hi : i ∉ a.unlabelled := fun member =>
    text_ne_of_mem_unlabelled member ne.symm first second same
  have hj : j ∉ a.unlabelled := fun member =>
    text_ne_of_mem_unlabelled member ne second first same.symm
  rw [label_labelled_of_not_mem hi] at first
  rw [label_labelled_of_not_mem hj] at second
  exact ⟨first, second⟩

/-- Reachable states keep different texts. -/
theorem distinct_labelled (plain : a.PlainLabels) (hi : a.graph.Reaches a.input i)
    (hj : a.graph.Reaches a.input j) {l m : Label}
    (first : (a.labelled.graph.state i).label = some l)
    (second : (a.labelled.graph.state j).label = some m) (same : l.text = m.text) : i = j := by
  by_contra ne
  obtain ⟨preset, preset'⟩ := preset_of_text_eq ne first second same
  exact ne (plain.distinct i j _ _ hi hj preset preset' same)

end Nfa

end FiniteAutomata
