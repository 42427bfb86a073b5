import FiniteAutomata.Proofs.Json.Grammar

/-!
Whatever the grammar allows is read: strings in any of their spellings, and the keys of objects with
spaces around them.
-/

namespace FiniteAutomata.Json

variable {cs cs' rest : List Char} {c : Char} {s : String}

/-! ### Spaces -/

theorem skipSpace_of_spaced (spaced : Spaced cs rest) : skipSpace cs = skipSpace rest := by
  induction spaced with
  | none => rfl
  | space blank _ ih => rw [← ih, skipSpace, List.dropWhile_cons_of_pos blank, skipSpace]

theorem skipSpace_cons (visible : isSpace c = false) (cs : List Char) :
    skipSpace (c :: cs) = c :: cs := by
  rw [skipSpace, List.dropWhile_cons_of_neg]
  rw [visible]
  exact Bool.false_ne_true

/-! ### Characters -/

theorem hexValue?_of_hexDigit {n : Nat} (digit : HexDigit c n) : hexValue? c = some n := by
  have lower : ∀ n < 16, hexValue? (hexDigit n) = some n := by decide
  have upper : ∀ n < 16, hexValue? (hexDigit n).toUpper = some n := by decide
  obtain ⟨small, rfl | rfl⟩ := digit
  · exact lower n small
  · exact upper n small

theorem hexCode_of_codeText {n : Nat} (code : CodeText cs n rest) : hexCode cs = .ok (n, rest) := by
  cases code with
  | mk first second third fourth =>
    simp [hexCode, hexValue?_of_hexDigit first, hexValue?_of_hexDigit second,
      hexValue?_of_hexDigit third, hexValue?_of_hexDigit fourth]

theorem codeEscape_of_codeText (code : CodeText cs c.toNat rest) :
    codeEscape cs = .ok (c, rest) := by
  -- The code of a character is no part of a surrogate pair.
  have valid : c.toNat < 0xD800 ∨ 0xDFFF < c.toNat ∧ c.toNat < 0x110000 := c.valid
  have notLow : ¬ (0xDC00 ≤ c.toNat ∧ c.toNat ≤ 0xDFFF) := by omega
  have single : c.toNat < 0xD800 ∨ 0xDBFF < c.toNat := by omega
  rw [codeEscape, hexCode_of_codeText code]
  dsimp only [bind, Except.bind]
  rw [if_neg notLow, if_pos single, Char.ofNat_toNat]
  rfl

theorem codeEscape_of_pair {high low : Nat} (first : CodeText cs high ('\\' :: 'u' :: cs'))
    (second : CodeText cs' low rest) (highLeast : 0xD800 ≤ high) (highMost : high ≤ 0xDBFF)
    (lowLeast : 0xDC00 ≤ low) (lowMost : low ≤ 0xDFFF)
    (value : c.toNat = 0x10000 + (high - 0xD800) * 0x400 + (low - 0xDC00)) :
    codeEscape cs = .ok (c, rest) := by
  have notLow : ¬ (0xDC00 ≤ high ∧ high ≤ 0xDFFF) := by omega
  have notSingle : ¬ (high < 0xD800 ∨ 0xDBFF < high) := by omega
  have isLow : ¬ (low < 0xDC00 ∨ 0xDFFF < low) := by omega
  have behind : expect ['\\', 'u'] ('\\' :: 'u' :: cs') = .ok cs' := rfl
  rw [codeEscape, hexCode_of_codeText first]
  dsimp only [bind, Except.bind]
  rw [if_neg notLow, if_neg notSingle, behind]
  dsimp only
  rw [hexCode_of_codeText second]
  dsimp only
  rw [if_neg isLow, ← value, Char.ofNat_toNat]
  rfl

theorem escaped_of_letter {e : Char} (listed : (e, c) ∈ letterEscapes) (rest : List Char) :
    escaped (e :: rest) = .ok (c, rest) := by
  simp only [letterEscapes, List.mem_cons, Prod.mk.injEq, List.not_mem_nil, or_false] at listed
  rcases listed with ⟨rfl, rfl⟩ | ⟨rfl, rfl⟩ | ⟨rfl, rfl⟩ | ⟨rfl, rfl⟩ | ⟨rfl, rfl⟩ | ⟨rfl, rfl⟩ |
    ⟨rfl, rfl⟩ | ⟨rfl, rfl⟩ <;> rfl

theorem stringChars_of_charText (spelled : CharText cs c rest) (limit : Nat) :
    stringChars (limit + 1) cs =
      (stringChars limit rest).map fun (chars, rest) => (c :: chars, rest) := by
  have behind {cs : List Char} (read : escaped cs = .ok (c, rest)) :
      stringChars (limit + 1) ('\\' :: cs) =
        (stringChars limit rest).map fun (chars, rest) => (c :: chars, rest) := by
    rw [stringChars, read]
    rfl
  cases spelled with
  | plain quote backslash visible =>
    rw [stringChars, if_neg (Nat.not_lt.mpr visible)]
    · rfl
    · exact quote
    · exact backslash
  | letter listed => exact behind (escaped_of_letter listed rest)
  | code code => exact behind (codeEscape_of_codeText code)
  | pair first second highLeast highMost lowLeast lowMost value =>
    exact behind (codeEscape_of_pair first second highLeast highMost lowLeast lowMost value)

theorem stringChars_of_charsText {chars : List Char} (spelled : CharsText cs chars rest)
    {limit : Nat} (enough : chars.length < limit) : stringChars limit cs = .ok (chars, rest) := by
  induction spelled generalizing limit with
  | close =>
    obtain ⟨limit, rfl⟩ := Nat.exists_eq_add_of_lt enough
    rfl
  | cons first _ ih =>
    rw [List.length_cons] at enough
    obtain ⟨limit, rfl⟩ : ∃ n, limit = n + 1 := ⟨limit - 1, by omega⟩
    rw [stringChars_of_charText first, ih (by omega)]
    rfl

/-- A string is read in any of its spellings. -/
theorem exists_stringRest_of_stringText (spelled : StringText cs s rest) :
    ∃ chars, cs = '"' :: chars ∧ stringRest chars = .ok (s, rest) := by
  cases spelled with
  | @mk _ chars _ spelled =>
    have shorter := spelled.length_add_lt
    refine ⟨chars, rfl, ?_⟩
    rw [stringRest, stringChars_of_charsText spelled (by omega)]
    dsimp only [bind, Except.bind, pure, Except.pure]
    rw [String.ofList_toList]

/-! ### Keys -/

theorem readKey_of_stringText {colon : List Char} (spelled : StringText cs s colon)
    (spaced : Spaced colon (':' :: rest)) :
    (do
      let cs ← expect ['"'] cs
      let (key, cs) ← stringRest cs
      return (some key, ← expect [':'] (skipSpace cs))) = .ok (some s, rest) := by
  obtain ⟨chars, rfl, read⟩ := exists_stringRest_of_stringText spelled
  show (stringRest chars >>= _) = _
  rw [read]
  dsimp only [bind, Except.bind]
  rw [skipSpace_of_spaced spaced, skipSpace_cons rfl]
  rfl

theorem nextKey_of_close {first : Bool} (spaced : Spaced cs ('\x7d' :: rest)) :
    nextKey first cs = .ok (none, rest) := by
  rw [nextKey, skipSpace_of_spaced spaced, skipSpace_cons rfl]
  rfl

theorem nextKey_first {colon : List Char} (spaced : Spaced cs cs') (name : StringText cs' s colon)
    (spaced' : Spaced colon (':' :: rest)) : nextKey true cs = .ok (some s, rest) := by
  have read := readKey_of_stringText name spaced'
  obtain ⟨chars, rfl, -⟩ := exists_stringRest_of_stringText name
  rw [nextKey, skipSpace_of_spaced spaced, skipSpace_cons rfl]
  exact read

theorem nextKey_comma {cs'' colon : List Char} (spaced : Spaced cs (',' :: cs'))
    (spaced' : Spaced cs' cs'') (name : StringText cs'' s colon)
    (spaced'' : Spaced colon (':' :: rest)) : nextKey false cs = .ok (some s, rest) := by
  have read := readKey_of_stringText name spaced''
  obtain ⟨chars, rfl, -⟩ := exists_stringRest_of_stringText name
  have start : skipSpace cs' = '"' :: chars := by
    rw [skipSpace_of_spaced spaced', skipSpace_cons rfl]
  rw [nextKey, skipSpace_of_spaced spaced, skipSpace_cons rfl]
  show (do
    let cs ← expect ['"'] (skipSpace cs')
    let (key, cs) ← stringRest cs
    return (some key, ← expect [':'] (skipSpace cs))) = _
  rw [start]
  exact read

end FiniteAutomata.Json
