import FiniteAutomata.Proofs.Dfa.Reading
import FiniteAutomata.Proofs.Dfa.Refinement
import FiniteAutomata.Proofs.Dfa.Rows
import FiniteAutomata.Proofs.Except

/-!
The tables that survive being written and read. What is written has no place for an alphabet of its
own, for a symbol that the alphabet repeats, or for a label that begins like a mark; a table that
has been read never needs one.
-/

namespace FiniteAutomata

/-! ### Headings -/

namespace Heading

variable {h : Heading String}

/-- The headings whose labels cannot be taken for a mark that they do not have. Behind the mark of
an accepting state every label is safe, as nothing is read off behind it. -/
def Legible (h : Heading String) : Prop :=
  h.accepts = true ∨
  h.starts = true ∧ ¬ ['*'] <+: h.label.toList ∨
  (h.starts = false ∧ h.accepts = false) ∧
    ¬ ['-', '>'] <+: h.label.toList ∧ ¬ ['*'] <+: h.label.toList

theorem takeStart_eq_false_iff {cs rest : List Char} :
    takeStart cs = (false, rest) ↔ ¬ ['-', '>'] <+: cs ∧ rest = cs := by
  fun_cases takeStart cs
  case case1 label => simp
  case case2 other =>
    have plain : ¬ ['-', '>'] <+: cs := by
      rintro ⟨label, rfl⟩
      exact other label rfl
    simp [plain, eq_comm]

theorem takeAccept_eq_false_iff {cs rest : List Char} :
    takeAccept cs = (false, rest) ↔ ¬ ['*'] <+: cs ∧ rest = cs := by
  fun_cases takeAccept cs
  case case1 label => simp
  case case2 other =>
    have plain : ¬ ['*'] <+: cs := by
      rintro ⟨label, rfl⟩
      exact other label rfl
    simp [plain, eq_comm]

/-- What has been read off a text is legible. -/
theorem legible_parse (s : String) : (parse s).Legible := by
  rw [parse]
  cases first : takeStart s.toList with | mk starts rest
  cases second : takeAccept rest with | mk accepts label
  dsimp only
  rw [second]
  cases accepts with
  | true => exact .inl rfl
  | false =>
    obtain ⟨plain, rfl⟩ := takeAccept_eq_false_iff.mp second
    cases starts with
    | true => exact .inr (.inl ⟨rfl, by rwa [String.toList_ofList]⟩)
    | false =>
      obtain ⟨unmarked, rfl⟩ := takeStart_eq_false_iff.mp first
      rw [String.ofList_toList]
      exact .inr (.inr ⟨⟨rfl, rfl⟩, unmarked, plain⟩)

/-- Legible headings, and no others, are read as they were written. -/
theorem parse_text_iff : parse h.text = h ↔ h.Legible := by
  constructor
  · intro same
    exact same ▸ legible_parse h.text
  · intro legible
    obtain ⟨label, starts, accepts⟩ := h
    have whole : String.ofList label.toList = label := String.ofList_toList
    rw [parse, text, String.toList_ofList]
    obtain rfl | ⟨rfl, plain⟩ | ⟨⟨rfl, rfl⟩, unmarked, plain⟩ := legible
    · cases starts <;> exact congrArg (Heading.mk · _ true) whole
    · cases accepts with
      | true => exact congrArg (Heading.mk · true true) whole
      | false =>
        show Heading.mk (String.ofList (takeAccept label.toList).2) true
          (takeAccept label.toList).1 = _
        rw [takeAccept_eq_false_iff.mpr ⟨plain, rfl⟩, whole]
    · show Heading.mk (String.ofList (takeAccept (takeStart label.toList).2).2)
        (takeStart label.toList).1 (takeAccept (takeStart label.toList).2).1 = _
      rw [takeStart_eq_false_iff.mpr ⟨unmarked, rfl⟩, takeAccept_eq_false_iff.mpr ⟨plain, rfl⟩,
        whole]

end Heading

/-! ### Columns -/

theorem eq_map_iff {α : Type} {f : α → α} {xs : List α} : xs = xs.map f ↔ ∀ x ∈ xs, f x = x := by
  rw [← List.map_inj_left, List.map_id', eq_comm]

theorem eraseDups_eq_self_iff {α : Type} [DecidableEq α] {xs : List α} :
    xs.eraseDups = xs ↔ xs.Nodup := by
  constructor
  · intro same
    exact same ▸ nodup_eraseDups xs
  · intro distinct
    induction xs with
    | nil => rfl
    | cons x xs ih =>
      obtain ⟨fresh, distinct⟩ := List.nodup_cons.mp distinct
      have others : xs.filter (fun y => !y == x) = xs := by
        rw [List.filter_eq_self]
        intro y member
        simpa using fun same : y = x => fresh (same ▸ member)
      rw [List.eraseDups_cons, others, ih distinct]

/-- Repeating a list does not add to its members. -/
theorem eraseDups_flatMap_const {α β : Type} [DecidableEq α] (xs : List α) (y : β) (ys : List β) :
    ((y :: ys).flatMap fun _ => xs).eraseDups = xs.eraseDups := by
  rw [List.flatMap_cons, List.eraseDups_append]
  have known : (ys.flatMap fun _ => xs).removeAll xs = [] := by
    rw [List.removeAll, List.filter_eq_nil_iff]
    intro x member
    obtain ⟨_, -, member⟩ := List.mem_flatMap.mp member
    simpa using member
  rw [known, List.eraseDups_nil, List.append_nil]

namespace Document

theorem toDfa_eq (doc : Document) : doc.toDfa =
    Dfa.ofRows doc.alphabet (doc.map fun entry => row doc.alphabet entry.1 entry.2) := rfl

/-- Distinct columns hold what was put under them. -/
theorem map_targetIn_zip {alphabet : List Char} (distinct : alphabet.Nodup)
    {targets : List (Option String)} (width : targets.length = alphabet.length) :
    alphabet.map (targetIn (alphabet.zip targets)) = targets := by
  induction alphabet generalizing targets with
  | nil => rw [List.length_eq_zero_iff.mp width, List.map_nil]
  | cons c alphabet ih =>
    obtain ⟨fresh, distinct⟩ := List.nodup_cons.mp distinct
    cases targets with
    | nil => cases width
    | cons target targets =>
      have behind : ∀ d ∈ alphabet, targetIn ((c, target) :: alphabet.zip targets) d =
          targetIn (alphabet.zip targets) d := by
        intro d member
        have other : c ≠ d := fun same => fresh (same ▸ member)
        rw [targetIn, List.find?_cons_of_neg (by simpa using other), targetIn]
      rw [List.zip_cons_cons, List.map_cons, List.map_congr_left behind,
        ih distinct (Nat.succ.inj width), targetIn, List.find?_cons_of_pos (by simp)]

end Document

/-! ### Tables -/

namespace Dfa

variable {d : Dfa}

/-- The tables that can be written without loss. -/
structure Writable (d : Dfa) : Prop where
  distinct : d.alphabet.Nodup
  listed : d.rows ≠ [] ∨ d.alphabet = []
  legible : ∀ r ∈ d.rows, r.heading.Legible

theorem alphabet_toDocument (d : Dfa) :
    d.toDocument.alphabet = (d.rows.flatMap fun _ => d.alphabet).eraseDups := by
  rw [Document.alphabet, toDocument, List.flatMap_map]
  refine congrArg List.eraseDups (List.flatMap_congr fun r member => ?_)
  exact List.map_fst_zip (Nat.le_of_eq (d.length_targets r member).symm)

/-- The symbols are found again if they are listed in some row, and only once in it. -/
theorem alphabet_toDocument_eq_iff :
    d.toDocument.alphabet = d.alphabet ↔ d.alphabet.Nodup ∧ (d.rows ≠ [] ∨ d.alphabet = []) := by
  rw [alphabet_toDocument]
  cases d.rows with
  | nil =>
    rw [List.flatMap_nil, List.eraseDups_nil]
    constructor
    · intro none
      exact none ▸ ⟨List.nodup_nil, .inr rfl⟩
    · rintro ⟨-, some | none⟩
      · exact absurd rfl some
      · exact none.symm
  | cons r rows =>
    rw [eraseDups_flatMap_const, eraseDups_eq_self_iff]
    exact ⟨fun distinct => ⟨distinct, .inl (List.cons_ne_nil r rows)⟩, And.left⟩

theorem toDfa_toDocument_iff : d.toDocument.toDfa = .ok d ↔ d.Writable := by
  have rows (alphabet : List Char) :
      (d.toDocument.map fun entry => Document.row alphabet entry.1 entry.2) =
        d.rows.map fun r => Document.row alphabet r.heading.text (d.alphabet.zip r.targets) := by
    rw [toDocument, List.map_map]
    rfl
  rw [Document.toDfa_eq, ofRows_eq_ok_iff, rows]
  constructor
  · rintro ⟨same, kept⟩
    obtain ⟨distinct, listed⟩ := alphabet_toDocument_eq_iff.mp same.symm
    refine ⟨distinct, listed, fun r member => ?_⟩
    have row := eq_map_iff.mp kept r member
    exact Heading.parse_text_iff.mp (congrArg Row.heading row)
  · rintro ⟨distinct, listed, legible⟩
    have same := alphabet_toDocument_eq_iff.mpr ⟨distinct, listed⟩
    refine ⟨same.symm, eq_map_iff.mpr fun r member => ?_⟩
    rw [Document.row, Heading.parse_text_iff.mpr (legible r member), same,
      Document.map_targetIn_zip distinct (d.length_targets r member)]

/-- What a document describes can be written. -/
theorem writable_of_toDfa {doc : Document} (made : doc.toDfa = .ok d) : d.Writable := by
  obtain ⟨alphabet, rows⟩ := ofRows_eq_ok_iff.mp made
  refine ⟨alphabet ▸ nodup_eraseDups _, ?_, fun r member => ?_⟩
  · cases doc with
    | nil => exact .inr alphabet
    | cons entry doc => exact .inl (rows ▸ List.cons_ne_nil _ _)
  · rw [rows] at member
    obtain ⟨entry, -, rfl⟩ := List.mem_map.mp member
    exact Heading.legible_parse entry.1

theorem exists_read_of_parse {text : String} (made : parse text = .ok d) :
    ∃ doc rest, Document.read text.toList = .ok (doc, rest) ∧ doc.toDfa = .ok d := by
  obtain ⟨⟨doc, rest⟩, read, made⟩ := bind_eq_ok_iff.mp made
  obtain ⟨d', table, made⟩ := bind_eq_ok_iff.mp made
  refine ⟨doc, rest, read, ?_⟩
  split at made
  · cases made
  · cases made
    exact mapError_eq_ok_iff.mp table

theorem parse_text_toDocument_iff : parse d.toDocument.text = .ok d ↔ d.Writable := by
  rw [parse_text, mapError_eq_ok_iff, toDfa_toDocument_iff]

/-- Exactly the writable tables are read back as they were written, and every table that a document
describes, or that has been read from a text, is one of them. -/
theorem parse_written (d : Dfa) :
    (parse d.toDocument.text = .ok d ↔ d.Writable) ∧
    ((∃ doc : Document, doc.toDfa = .ok d) → parse d.toDocument.text = .ok d) ∧
    ((∃ text, parse text = .ok d) → parse d.toDocument.text = .ok d) := by
  refine ⟨parse_text_toDocument_iff, ?_, ?_⟩
  · rintro ⟨doc, made⟩
    exact parse_text_toDocument_iff.mpr (writable_of_toDfa made)
  · rintro ⟨text, made⟩
    obtain ⟨doc, -, -, made⟩ := exists_read_of_parse made
    exact parse_text_toDocument_iff.mpr (writable_of_toDfa made)

/-- Three rows, of which one repeats a symbol, one has no columns and one lists a later symbol. -/
def sparse : Document :=
  [("->1", [('a', some "3"), ('a', none)]), ("*2", []), ("3", [('b', some "2")])]

/-- The columns that are missing are written once they have been read. -/
theorem parse_written_sparse : ∃ d : Dfa, parse sparse.text = .ok d ∧ d.toDocument ≠ sparse ∧
    parse d.toDocument.text = .ok d := by
  let d : Dfa := {
    alphabet := ['a', 'b']
    rows := [⟨⟨"1", true, false⟩, [some "3", none]⟩, ⟨⟨"2", false, true⟩, [none, none]⟩,
      ⟨⟨"3", false, false⟩, [none, some "2"]⟩]
    length_targets := by decide
    nodup_labels := by decide }
  have made : sparse.toDfa = .ok d := ofRows_eq_ok_iff.mpr ⟨by decide, by decide⟩
  have read : parse sparse.text = .ok d := by rw [parse_text, mapError_eq_ok_iff, made]
  exact ⟨d, read, by decide, (parse_written d).2.2 ⟨_, read⟩⟩

end Dfa

end FiniteAutomata
