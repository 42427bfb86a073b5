import FiniteAutomata.Proofs.Json.Grammar

/-!
Strings and objects are written by the grammar, in one of their spellings and whatever follows them.
-/

namespace FiniteAutomata.Json

theorem hexDigit_hexDigit {n : Nat} (small : n < 16) : HexDigit (hexDigit n) n := ⟨small, .inl rfl⟩

theorem charText_escape (c : Char) (rest : List Char) : CharText (escape c ++ rest) c rest := by
  fun_cases escape c
  case case8 _ _ _ _ _ _ _ control =>
    have zero : HexDigit '0' 0 := hexDigit_hexDigit (by decide)
    have high : HexDigit (hexDigit (c.toNat / 16)) (c.toNat / 16) := hexDigit_hexDigit (by omega)
    have low : HexDigit (hexDigit (c.toNat % 16)) (c.toNat % 16) := hexDigit_hexDigit (by omega)
    have value : 16 * (16 * (16 * 0 + 0) + c.toNat / 16) + c.toNat % 16 = c.toNat := by omega
    have code := @CodeText.mk _ _ _ _ _ _ _ _ rest zero zero high low
    rw [value] at code
    exact .code code
  case case9 quote backslash _ _ _ _ _ visible => exact .plain quote backslash (Nat.not_lt.mp visible)
  all_goals exact .letter (by decide)

theorem charsText_written (cs rest : List Char) :
    CharsText (cs.flatMap escape ++ '"' :: rest) cs rest := by
  induction cs with
  | nil => exact .close
  | cons c cs ih =>
    rw [List.flatMap_cons, List.append_assoc]
    exact .cons (charText_escape c _) ih

theorem stringText_string (s : String) (rest : List Char) : StringText (string s ++ rest) s rest := by
  rw [string, quoted, List.cons_append, List.cons_append, List.append_assoc, List.singleton_append]
  exact .mk (charsText_written s.toList rest)

/-! ### Objects -/

theorem object_eq (entries : List (String × List Char)) : object entries =
    '\x7b' :: separated (entries.map fun entry => string entry.1 ++ ':' :: entry.2) ++ ['\x7d'] :=
  rfl

theorem separated_cons (item : List Char) (items : List (List Char)) :
    separated (item :: items) = item ++ items.flatMap (',' :: ·) := by
  induction items generalizing item with
  | nil => simp [separated, List.intercalate]
  | cons next items ih =>
    have step : separated (item :: next :: items) = item ++ ',' :: separated (next :: items) := by
      simp [separated, List.intercalate]
    rw [step, ih, List.flatMap_cons, List.cons_append]

section Objects

variable {α : Type} {key : α → String} {value : List Char → α → List Char → Prop}
  {write : α → List Char} (spells : ∀ x rest, value (write x ++ rest) x rest)
include spells

theorem entryText_written (x : α) (rest : List Char) :
    EntryText key value (string (key x) ++ ':' :: (write x ++ rest)) x rest :=
  .mk (stringText_string (key x) _) .none (spells x rest)

theorem entriesText_written (xs : List α) (rest : List Char) : EntriesText key value false
    (xs.flatMap (fun x => ',' :: (string (key x) ++ ':' :: write x)) ++ '\x7d' :: rest) xs rest := by
  induction xs with
  | nil => exact .close .none
  | cons x xs ih =>
    rw [List.flatMap_cons, List.append_assoc, List.cons_append, List.append_assoc, List.cons_append]
    exact .next .none .none (entryText_written spells x _) ih

theorem objectText_object (xs : List α) (rest : List Char) :
    ObjectText key value (object (xs.map fun x => (key x, write x)) ++ rest) xs rest := by
  have items : (xs.map fun x => (key x, write x)).map (fun entry =>
      string entry.1 ++ ':' :: entry.2) = xs.map fun x => string (key x) ++ ':' :: write x := by
    rw [List.map_map]
    rfl
  rw [object_eq, items, List.cons_append, List.cons_append, List.append_assoc, List.singleton_append]
  refine .mk .none ?_
  cases xs with
  | nil => exact .close .none
  | cons x xs =>
    rw [List.map_cons, separated_cons, List.flatMap_map, List.append_assoc, List.append_assoc,
      List.cons_append]
    exact .head .none (entryText_written spells x _) (entriesText_written spells xs rest)

end Objects

end FiniteAutomata.Json
