import FiniteAutomata.Dfa.Determinizer
import FiniteAutomata.Dfa.Reading
import FiniteAutomata.Fragment.Lemmas
import FiniteAutomata.Fragment.Random
import FiniteAutomata.Graph.Run
import FiniteAutomata.Index
import FiniteAutomata.Nfa.TransitionTable
import FiniteAutomata.Proofs.Dfa.ClosureTable
import FiniteAutomata.Proofs.Dfa.Determinizer
import FiniteAutomata.Proofs.Fragment.Denotation
import FiniteAutomata.Graph.Configuration
import FiniteAutomata.Proofs.Graph.Exploration
import FiniteAutomata.Proofs.Dfa.Columns
import FiniteAutomata.Proofs.Dfa.Equivalence
import FiniteAutomata.Proofs.Dfa.Starts
import FiniteAutomata.Proofs.Dfa.Trim
import FiniteAutomata.Proofs.Dfa.Minimality
import FiniteAutomata.Proofs.Dfa.Requests
import FiniteAutomata.Proofs.Fragment.Invariant
import FiniteAutomata.Proofs.Json.Strings
import FiniteAutomata.Proofs.Dfa.Reading
import FiniteAutomata.Proofs.Dfa.Writing
import FiniteAutomata.Proofs.Dfa.Worklist
import FiniteAutomata.Proofs.Dfa.Failures
import FiniteAutomata.Proofs.Dfa.Quotient
import FiniteAutomata.Proofs.Dfa.Reduced
import FiniteAutomata.Proofs.Fragment.Behaviour
import FiniteAutomata.Proofs.Graph.DepthFirst
import FiniteAutomata.Proofs.Nfa.Numbering
import FiniteAutomata.Proofs.Dfa.Discovery
import FiniteAutomata.Proofs.Dfa.Isomorphism
import FiniteAutomata.Proofs.Dfa.Documents
import FiniteAutomata.Proofs.Nfa.Closures
import FiniteAutomata.Proofs.Dfa.Keys
import FiniteAutomata.Proofs.Dfa.UnknownTargets
import FiniteAutomata.Proofs.Nfa.EndRows
import FiniteAutomata.Proofs.Dfa.Drafts
import FiniteAutomata.Proofs.SortedSet.Canonical
import FiniteAutomata.Proofs.Fragment.Random
import FiniteAutomata.Proofs.Fragment.Operations
