import FiniteAutomata.Json.Text

/-!
Numbers in JSON. Integers of 64 bits are read exactly. Any other number is read as a significand
below `2^64` and a power of ten, which are put together by one multiplication or division.
-/

namespace FiniteAutomata.Json

inductive Number where
  | integer (n : Int)
  | float (x : Float)

namespace Number

def isDigit (c : Char) : Bool := '0' ≤ c ∧ c ≤ '9'

/-- Appends digits to a number for as long as it stays below `2^64`; returns it with the count of
the digits taken and the rest of the text. -/
def appendDigits (n : Nat) : List Char → Nat × Nat × List Char
  | [] => (n, 0, [])
  | c :: cs =>
    let longer := 10 * n + (c.toNat - '0'.toNat)
    if isDigit c ∧ longer < UInt64.size then
      let (all, count, rest) := appendDigits longer cs
      (all, count + 1, rest)
    else (n, 0, c :: cs)

/-- Divides by `10^n` in steps that stay in range. -/
def divPower (x : Float) (n : Nat) : Float :=
  if n ≤ 308 then x / Float.ofScientific 1 false n
  else if x == 0 then x
  else divPower (x / Float.ofScientific 1 false 308) (n - 308)
termination_by n

/-- The number `significand · 10^exponent`, which must be finite. -/
def scaled (negative : Bool) (significand : Nat) (exponent : Int) : Except Fault Number := do
  let x := Float.ofNat significand
  let x ←
    if exponent < 0 then pure (divPower x exponent.natAbs)
    else if significand = 0 then pure x
    else if exponent ≤ 308 then pure (x * Float.ofScientific 1 false exponent.natAbs)
    else throw .malformed
  if x.isInf then throw .malformed
  return float (if negative then -x else x)

/-- Reads the sign and the digits of an exponent, whose letter has been read. An exponent of more
than 31 bits only suits zero or a number that rounds to it. -/
def exponentPart (negative : Bool) (significand : Nat) (shift : Int) (cs : List Char) :
    Except Fault (Number × List Char) := do
  let (down, cs) := match cs with
    | '+' :: cs => (false, cs)
    | '-' :: cs => (true, cs)
    | cs => (false, cs)
  let digits := cs.takeWhile isDigit
  let rest := cs.dropWhile isDigit
  if digits = [] then throw (if cs = [] then .unfinished else .malformed)
  let exponent := digits.foldl (fun n c => 10 * n + (c.toNat - '0'.toNat)) 0
  if UInt32.size / 2 ≤ exponent then
    if significand ≠ 0 ∧ ¬ down then throw .malformed
    return (← scaled negative 0 0, rest)
  let shift := if down then shift - exponent else shift + exponent
  return (← scaled negative significand shift, rest)

/-- Reads what follows the digits of a number that is not an integer. -/
def scale (negative : Bool) (significand : Nat) (shift : Int) (cs : List Char) :
    Except Fault (Number × List Char) :=
  match cs with
  | 'e' :: cs | 'E' :: cs => exponentPart negative significand shift cs
  | cs => return (← scaled negative significand shift, cs)

/-- Reads the digits behind the point. Digits that no longer fit are dropped. -/
def fractionPart (negative : Bool) (significand : Nat) (shift : Int) (cs : List Char) :
    Except Fault (Number × List Char) :=
  let (significand, count, rest) := appendDigits significand cs
  if (rest.head?).any isDigit then
    scale negative significand (shift - count) (rest.dropWhile isDigit)
  else if count = 0 then .error (if rest = [] then .unfinished else .malformed)
  else scale negative significand (shift - count) rest

/-- Reads what follows the integer digits. A negative zero is no integer. -/
def afterDigits (negative : Bool) (significand : Nat) (cs : List Char) :
    Except Fault (Number × List Char) :=
  match cs with
  | '.' :: cs => fractionPart negative significand 0 cs
  | 'e' :: cs | 'E' :: cs => exponentPart negative significand 0 cs
  | cs =>
    if negative then
      if 0 < significand ∧ significand ≤ UInt64.size / 2 then .ok (integer (-significand), cs)
      else return (← scaled true significand 0, cs)
    else .ok (integer significand, cs)

/-- Reads a number without its sign. -/
def read (negative : Bool) : List Char → Except Fault (Number × List Char)
  | [] => .error .unfinished
  | '0' :: cs => if (cs.head?).any isDigit then .error .malformed else afterDigits negative 0 cs
  | c :: cs =>
    if isDigit c then
      let (significand, _, rest) := appendDigits 0 (c :: cs)
      if (rest.head?).any isDigit then
        let dropped := (rest.takeWhile isDigit).length
        match rest.dropWhile isDigit with
        | '.' :: cs => fractionPart negative significand dropped cs
        | cs => scale negative significand dropped cs
      else afterDigits negative significand rest
    else .error .malformed

end Number

end FiniteAutomata.Json
