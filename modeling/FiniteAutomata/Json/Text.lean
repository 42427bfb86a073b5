/-!
JSON texts. In what is written, quotation marks, backslashes and control characters are escaped; all
other characters stand for themselves, and nothing is spaced. The parts of a text are read from left
to right: a function that reads a part returns it with the rest of the text, or the fault at which
it stopped, which is that the text ended too early or goes on with a character that cannot stand
there.
-/

namespace FiniteAutomata.Json

/-! ### Writing -/

def hexDigit (n : Nat) : Char := "0123456789abcdef".toList.getD n '0'

/-- How a character is written inside a string. -/
def escape (c : Char) : List Char :=
  match c with
  | '"' => ['\\', '"']
  | '\\' => ['\\', '\\']
  | '\x08' => ['\\', 'b']
  | '\x0c' => ['\\', 'f']
  | '\n' => ['\\', 'n']
  | '\r' => ['\\', 'r']
  | '\t' => ['\\', 't']
  | c =>
    if c.toNat < 0x20 then
      ['\\', 'u', '0', '0', hexDigit (c.toNat / 16), hexDigit (c.toNat % 16)]
    else [c]

def quoted (cs : List Char) : List Char := '"' :: cs.flatMap escape ++ ['"']

def string (s : String) : List Char := quoted s.toList

def separated (items : List (List Char)) : List Char := List.intercalate [','] items

def array (items : List (List Char)) : List Char := '[' :: separated items ++ [']']

/-- Entries are written in their order, and keys are repeated if entries repeat them. -/
def object (entries : List (String × List Char)) : List Char :=
  '\x7b' :: separated (entries.map fun (key, value) => string key ++ ':' :: value) ++ ['\x7d']

/-! ### Reading -/

inductive Fault where
  | malformed
  | unfinished
deriving DecidableEq

def isSpace (c : Char) : Bool := c = ' ' || c = '\n' || c = '\t' || c = '\r'

def skipSpace (cs : List Char) : List Char := cs.dropWhile isSpace

/-- Reads characters that must stand at the front of the text. -/
def expect : (word : List Char) → List Char → Except Fault (List Char)
  | [], cs => .ok cs
  | _ :: _, [] => .error .unfinished
  | w :: word, c :: cs => if c = w then expect word cs else .error .malformed

/-! ### Reading strings -/

def hexValue? (c : Char) : Option Nat :=
  if '0' ≤ c ∧ c ≤ '9' then some (c.toNat - '0'.toNat)
  else if 'a' ≤ c ∧ c ≤ 'f' then some (c.toNat - 'a'.toNat + 10)
  else if 'A' ≤ c ∧ c ≤ 'F' then some (c.toNat - 'A'.toNat + 10)
  else none

/-- Four hexadecimal digits. The text ends too early if fewer than four bytes of it are left. -/
def hexCode (cs : List Char) : Except Fault (Nat × List Char) :=
  let digits := (cs.take 4).filterMap hexValue?
  if digits.length = 4 then .ok (digits.foldl (16 * · + ·) 0, cs.drop 4)
  else if (String.ofList cs).utf8ByteSize < 4 then .error .unfinished
  else .error .malformed

/-- The character of an escaped code, which stands behind a backslash and `u`. The codes of a
surrogate pair must follow each other. -/
def codeEscape (cs : List Char) : Except Fault (Char × List Char) := do
  let (high, cs) ← hexCode cs
  if 0xDC00 ≤ high ∧ high ≤ 0xDFFF then throw .malformed
  if high < 0xD800 ∨ 0xDBFF < high then return (Char.ofNat high, cs)
  let cs ← expect ['\\', 'u'] cs
  let (low, cs) ← hexCode cs
  if low < 0xDC00 ∨ 0xDFFF < low then throw .malformed
  return (Char.ofNat (0x10000 + (high - 0xD800) * 0x400 + (low - 0xDC00)), cs)

/-- The character of an escape, whose backslash has been read. -/
def escaped : List Char → Except Fault (Char × List Char)
  | [] => .error .unfinished
  | '"' :: cs => .ok ('"', cs)
  | '\\' :: cs => .ok ('\\', cs)
  | '/' :: cs => .ok ('/', cs)
  | 'b' :: cs => .ok ('\x08', cs)
  | 'f' :: cs => .ok ('\x0c', cs)
  | 'n' :: cs => .ok ('\n', cs)
  | 'r' :: cs => .ok ('\r', cs)
  | 't' :: cs => .ok ('\t', cs)
  | 'u' :: cs => codeEscape cs
  | _ :: _ => .error .malformed

/-- The characters of a string, whose opening quotation mark has been read. Every character takes
at least one of `limit`. -/
def stringChars : (limit : Nat) → List Char → Except Fault (List Char × List Char)
  | 0, _ => .error .unfinished
  | _, [] => .error .unfinished
  | _ + 1, '"' :: cs => .ok ([], cs)
  | limit + 1, '\\' :: cs => do
    let (c, cs) ← escaped cs
    let (rest, cs) ← stringChars limit cs
    return (c :: rest, cs)
  | limit + 1, c :: cs => do
    if c.toNat < 0x20 then throw .malformed
    let (rest, cs) ← stringChars limit cs
    return (c :: rest, cs)

def stringRest (cs : List Char) : Except Fault (String × List Char) := do
  let (chars, rest) ← stringChars cs.length cs
  return (String.ofList chars, rest)

/-! ### Reading objects -/

/-- Goes to the next entry of an object and reads its key and the colon; nothing is returned at the
end of the object. Entries after the first follow a comma. -/
def nextKey (first : Bool) (cs : List Char) : Except Fault (Option String × List Char) := do
  let key (cs : List Char) : Except Fault (Option String × List Char) := do
    let cs ← expect ['"'] cs
    let (key, cs) ← stringRest cs
    return (some key, ← expect [':'] (skipSpace cs))
  match skipSpace cs with
  | '\x7d' :: cs => return (none, cs)
  | ',' :: cs => if first then throw .malformed else key (skipSpace cs)
  | cs => if first ∨ cs = [] then key cs else throw .malformed

end FiniteAutomata.Json
