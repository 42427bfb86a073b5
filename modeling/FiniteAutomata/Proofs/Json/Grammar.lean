import FiniteAutomata.Json.Text

/-!
The grammar of strings and objects in JSON. A relation `R cs x rest` says that the text `cs` begins
with a spelling of `x` and goes on with `rest`. Most values have many spellings, as any character may
be escaped and spaces may stand between the parts of an object.
-/

namespace FiniteAutomata.Json

inductive Spaced : List Char → List Char → Prop where
  | none {rest : List Char} : Spaced rest rest
  | space {c : Char} {cs rest : List Char} : isSpace c = true → Spaced cs rest → Spaced (c :: cs) rest

/-! ### Strings -/

/-- A hexadecimal digit in lower or upper case. -/
def HexDigit (c : Char) (n : Nat) : Prop := n < 16 ∧ (c = hexDigit n ∨ c = (hexDigit n).toUpper)

/-- A code of four hexadecimal digits. -/
inductive CodeText : List Char → Nat → List Char → Prop where
  | mk {a b c d : Char} {i j k l : Nat} {rest : List Char} :
    HexDigit a i → HexDigit b j → HexDigit c k → HexDigit d l →
    CodeText (a :: b :: c :: d :: rest) (16 * (16 * (16 * i + j) + k) + l) rest

/-- The characters that have an escape of one letter. -/
def letterEscapes : List (Char × Char) :=
  [('"', '"'), ('\\', '\\'), ('/', '/'), ('b', '\x08'), ('f', '\x0c'), ('n', '\n'), ('r', '\r'),
    ('t', '\t')]

/-- A character inside a string. Characters above `0xFFFF` are escaped by the two codes of a
surrogate pair. -/
inductive CharText : List Char → Char → List Char → Prop where
  | plain {c : Char} {rest : List Char} :
    c ≠ '"' → c ≠ '\\' → 0x20 ≤ c.toNat → CharText (c :: rest) c rest
  | letter {e c : Char} {rest : List Char} :
    (e, c) ∈ letterEscapes → CharText ('\\' :: e :: rest) c rest
  | code {c : Char} {cs rest : List Char} :
    CodeText cs c.toNat rest → CharText ('\\' :: 'u' :: cs) c rest
  | pair {c : Char} {high low : Nat} {cs cs' rest : List Char} :
    CodeText cs high ('\\' :: 'u' :: cs') → CodeText cs' low rest →
    0xD800 ≤ high → high ≤ 0xDBFF → 0xDC00 ≤ low → low ≤ 0xDFFF →
    c.toNat = 0x10000 + (high - 0xD800) * 0x400 + (low - 0xDC00) →
    CharText ('\\' :: 'u' :: cs) c rest

/-- The characters of a string and the quotation mark behind them. -/
inductive CharsText : List Char → List Char → List Char → Prop where
  | close {rest : List Char} : CharsText ('"' :: rest) [] rest
  | cons {c : Char} {cs more chars rest : List Char} :
    CharText cs c more → CharsText more chars rest → CharsText cs (c :: chars) rest

inductive StringText : List Char → String → List Char → Prop where
  | mk {s : String} {cs rest : List Char} : CharsText cs s.toList rest → StringText ('"' :: cs) s rest

/-! ### Objects -/

section Objects

variable {α : Type} (key : α → String) (value : List Char → α → List Char → Prop)

/-- A key, a colon and what `value` makes of the entry. -/
inductive EntryText : List Char → α → List Char → Prop where
  | mk {x : α} {cs colon cs' rest : List Char} :
    StringText cs (key x) colon → Spaced colon (':' :: cs') → value cs' x rest → EntryText cs x rest

/-- Entries and the brace behind them. Every entry but the first follows a comma. -/
inductive EntriesText : Bool → List Char → List α → List Char → Prop where
  | close {first : Bool} {cs rest : List Char} :
    Spaced cs ('\x7d' :: rest) → EntriesText first cs [] rest
  | head {x : α} {xs : List α} {cs cs' more rest : List Char} :
    Spaced cs cs' → EntryText key value cs' x more → EntriesText false more xs rest →
    EntriesText true cs (x :: xs) rest
  | next {x : α} {xs : List α} {cs cs' cs'' more rest : List Char} :
    Spaced cs (',' :: cs') → Spaced cs' cs'' → EntryText key value cs'' x more →
    EntriesText false more xs rest → EntriesText false cs (x :: xs) rest

inductive ObjectText : List Char → List α → List Char → Prop where
  | mk {xs : List α} {cs cs' rest : List Char} :
    Spaced cs ('\x7b' :: cs') → EntriesText key value true cs' xs rest → ObjectText cs xs rest

end Objects

/-! ### Lengths -/

section Lengths

variable {cs rest : List Char}

theorem Spaced.length_le (spaced : Spaced cs rest) : rest.length ≤ cs.length := by
  induction spaced with
  | none => exact Nat.le_refl _
  | space _ _ ih => exact Nat.le_succ_of_le ih

theorem CodeText.length_eq {n : Nat} (code : CodeText cs n rest) :
    cs.length = rest.length + 4 := by
  cases code
  rfl

theorem CharText.length_lt {c : Char} (spelled : CharText cs c rest) : rest.length < cs.length := by
  cases spelled with
  | plain => exact Nat.lt_succ_self _
  | letter => exact Nat.lt_succ_of_lt (Nat.lt_succ_self _)
  | code code =>
    have digits := code.length_eq
    simp only [List.length_cons]
    omega
  | pair high low =>
    have digits := high.length_eq
    have more := low.length_eq
    simp only [List.length_cons] at digits ⊢
    omega

theorem CharsText.length_add_lt {chars : List Char} (spelled : CharsText cs chars rest) :
    chars.length + rest.length < cs.length := by
  induction spelled with
  | close => simp
  | cons first _ ih =>
    have shorter := first.length_lt
    rw [List.length_cons]
    omega

theorem StringText.length_lt {s : String} (spelled : StringText cs s rest) :
    rest.length < cs.length := by
  cases spelled with
  | mk chars =>
    have shorter := chars.length_add_lt
    rw [List.length_cons]
    omega

variable {α : Type} {key : α → String} {value : List Char → α → List Char → Prop}
  (shrinks : ∀ {cs x rest}, value cs x rest → rest.length < cs.length)
include shrinks

theorem EntryText.length_lt {x : α} (spelled : EntryText key value cs x rest) :
    rest.length < cs.length := by
  cases spelled with
  | mk name colon entry =>
    have first := name.length_lt
    have second := colon.length_le
    have third := shrinks entry
    rw [List.length_cons] at second
    omega

theorem EntriesText.length_lt {first : Bool} {xs : List α}
    (spelled : EntriesText key value first cs xs rest) : rest.length < cs.length := by
  induction spelled with
  | close spaced => exact spaced.length_le
  | head spaced entry _ ih =>
    have before := spaced.length_le
    have shorter := entry.length_lt shrinks
    omega
  | next spaced spaced' entry _ ih =>
    have before := spaced.length_le
    have behind := spaced'.length_le
    have shorter := entry.length_lt shrinks
    rw [List.length_cons] at before
    omega

theorem ObjectText.length_lt {xs : List α} (spelled : ObjectText key value cs xs rest) :
    rest.length < cs.length := by
  cases spelled with
  | mk spaced entries =>
    have before := spaced.length_le
    have shorter := entries.length_lt shrinks
    rw [List.length_cons] at before
    omega

end Lengths

end FiniteAutomata.Json
