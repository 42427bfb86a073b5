import FiniteAutomata.Dfa.Determinizer
import FiniteAutomata.Proofs.Nfa.Labels

/-!
Requests for tables. A determinizer remembers what it has made, and failed requests leave labels
behind, but no answer depends on the requests before it (`answers_eq_map`).
-/

namespace FiniteAutomata

/-! ### Making the table of an automaton again -/

namespace Tabulated

variable {t : Tabulated} {table : TransitionTable} {e : AutomatonError}

/-- Making the table again changes nothing: a table is kept, and without one the labels are those
that the same attempt has given out before. -/
theorem make_make (t : Tabulated) : t.make.1.make = t.make := by
  obtain ⟨a, made⟩ := t
  cases made with
  | some table => rfl
  | none =>
    cases tabulated : a.labelled.tabulate .closure with
    | ok table => rw [make_of_ok (t := ⟨a, none⟩) rfl tabulated, make_of_made rfl]
    | error e =>
      have first := make_of_error (t := ⟨a, none⟩) rfl tabulated
      rw [first]
      exact a.make_labelled.trans first

theorem powerset_fst (t : Tabulated) : t.powerset.1 = t.make.1 := by
  rw [powerset]
  dsimp only
  split <;> rfl

theorem powerset_powerset (t : Tabulated) : t.powerset.1.powerset = t.powerset := by
  rw [powerset_fst, powerset, make_make, powerset]

end Tabulated

namespace Determinizer

/-! ### Requests and answers -/

/-- A determinizer that has not been asked for a table yet. -/
def fresh (a : Nfa) : Determinizer := { source := { nfa := a } }

inductive Request where
  | powerset
  | renamed
  | minimal
deriving DecidableEq

def Request.answer : Request → Determinizer → Determinizer × Except TableError Dfa
  | powerset, b => b.powerset
  | renamed, b => b.renamed
  | minimal, b => b.minimal

/-- The answers to requests that are made one after the other. -/
def answers (b : Determinizer) : List Request → List (Except TableError Dfa)
  | [] => []
  | r :: rs => (r.answer b).2 :: (r.answer b).1.answers rs

/-- The answer to a request when nothing is remembered. -/
def Request.compute (t : Tabulated) : Request → Except TableError Dfa
  | powerset => t.powerset.2
  | renamed => t.powerset.2.bind Dfa.relabel
  | minimal => (t.powerset.2.bind Dfa.relabel).bind Dfa.minimize

/-! ### What is remembered -/

/-- The tables that are kept are those that would be computed, and computing the powerset table from
the source as it is now gives what it gave at first. -/
structure Remembers (t : Tabulated) (b : Determinizer) : Prop where
  source : b.source.powerset = t.powerset
  powerset : ∀ d, b.powersetMade = some d → Request.powerset.compute t = .ok d
  renamed : ∀ d, b.renamedMade = some d → Request.renamed.compute t = .ok d

variable {t : Tabulated} {b : Determinizer}

theorem remembers_fresh (a : Nfa) : Remembers { nfa := a } (fresh a) where
  source := rfl
  powerset _ kept := by cases kept
  renamed _ kept := by cases kept

theorem Remembers.powerset_eq (remembers : Remembers t b) :
    b.powerset.2 = Request.powerset.compute t ∧ Remembers t b.powerset.1 := by
  obtain ⟨source, kept, keptRenamed⟩ := b
  obtain ⟨same, right, rightRenamed⟩ := remembers
  cases kept with
  | some d => exact ⟨(right d rfl).symm, same, right, rightRenamed⟩
  | none =>
    have same : source.powerset = t.powerset := same
    have again : t.powerset.1.powerset = t.powerset := t.powerset_powerset
    rw [Determinizer.powerset]
    dsimp only
    rw [same]
    cases computed : t.powerset with
    | mk source' outcome =>
      rw [computed] at again
      cases outcome with
      | ok d =>
        have result : Request.powerset.compute t = .ok d := congrArg Prod.snd computed
        refine ⟨result.symm, again.trans computed.symm, fun d' made => ?_, rightRenamed⟩
        obtain rfl : d = d' := Option.some.inj made
        exact result
      | error e =>
        have result : Request.powerset.compute t = .error e := congrArg Prod.snd computed
        exact ⟨result.symm, again.trans computed.symm, right, rightRenamed⟩

theorem Remembers.renamed_eq (remembers : Remembers t b) :
    b.renamed.2 = Request.renamed.compute t ∧ Remembers t b.renamed.1 := by
  rw [Determinizer.renamed]
  cases kept : b.renamedMade with
  | some d => exact ⟨(remembers.renamed d kept).symm, remembers⟩
  | none =>
    obtain ⟨answer, remembers'⟩ := remembers.powerset_eq
    have computed : b.powerset.2.bind Dfa.relabel = Request.renamed.compute t := by
      rw [answer]
      rfl
    dsimp only
    cases outcome : b.powerset.2.bind Dfa.relabel with
    | ok d =>
      rw [outcome] at computed
      refine ⟨computed, remembers'.source, remembers'.powerset, fun d' made => ?_⟩
      obtain rfl : d = d' := Option.some.inj made
      exact computed.symm
    | error e => exact ⟨outcome.symm.trans computed, remembers'⟩

theorem Remembers.minimal_eq (remembers : Remembers t b) :
    b.minimal.2 = Request.minimal.compute t ∧ Remembers t b.minimal.1 := by
  obtain ⟨answer, remembers'⟩ := remembers.renamed_eq
  refine ⟨?_, remembers'⟩
  show b.renamed.2.bind Dfa.minimize = _
  rw [answer]
  rfl

/-- A request is answered as if nothing were remembered, and what is remembered stays right. -/
theorem Remembers.answer_eq (remembers : Remembers t b) (r : Request) :
    (r.answer b).2 = r.compute t ∧ Remembers t (r.answer b).1 := by
  cases r with
  | powerset => exact remembers.powerset_eq
  | renamed => exact remembers.renamed_eq
  | minimal => exact remembers.minimal_eq

theorem Remembers.answers_eq (remembers : Remembers t b) (requests : List Request) :
    b.answers requests = requests.map (Request.compute t) := by
  induction requests generalizing b with
  | nil => rfl
  | cons r requests ih =>
    obtain ⟨answer, remembers'⟩ := remembers.answer_eq r
    rw [answers, answer, ih remembers', List.map_cons]

/-- Every request gets the table or the error that it would get as the first request to a fresh
determinizer, whatever has been asked for before, with or without success. -/
theorem answers_eq_map (a : Nfa) (requests : List Request) :
    (fresh a).answers requests = requests.map fun r => (r.answer (fresh a)).2 := by
  rw [(remembers_fresh a).answers_eq]
  exact List.map_congr_left fun r _ => ((remembers_fresh a).answer_eq r).1.symm

end Determinizer

end FiniteAutomata
