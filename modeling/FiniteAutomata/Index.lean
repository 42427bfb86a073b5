/-!
Indices that carry in their type what they count, so that the index of a state cannot be taken for
the index of a block. They behave as the numbers they hold.
-/

namespace FiniteAutomata

universe u

structure Index (kind : Type u) where
  value : Nat
deriving Inhabited

namespace Index

variable {kind : Type u}

theorem ext {i j : Index kind} (h : i.value = j.value) : i = j := congrArg mk h

instance : DecidableEq (Index kind) := fun i j =>
  if h : i.value = j.value then isTrue (ext h) else isFalse fun e => h (congrArg value e)

instance : Ord (Index kind) := ⟨fun i j => compare i.value j.value⟩

instance : Max (Index kind) := ⟨fun i j => ⟨max i.value j.value⟩⟩

def text (i : Index kind) : String := i.value.repr

end Index

end FiniteAutomata
