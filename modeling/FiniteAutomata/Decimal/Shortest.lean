/-!
The fewest decimal digits that tell a binary floating-point number from its neighbours. A positive
number `m · 2^q` is the nearest to all points of an interval; of the decimal grids, from coarse to
fine, the first with a point in that interval gives the digits.
-/

namespace FiniteAutomata.Decimal

/-- A positive number `m · 2^q`, where `least` says that its lower neighbour is half as far away as
the upper one. -/
structure Binary where
  m : Nat
  q : Int
  least : Bool

/-- The digits `digits · 10^exponent`. -/
structure Digits where
  digits : Nat
  exponent : Int
deriving DecidableEq

namespace Binary

/-- The leading bit of a significand, which is not stored. -/
def hidden : Nat := 0x10000000000000

/-- Decodes the significand and the exponent of a positive number of 64 bits. -/
def ofBits (bits : UInt64) : Binary :=
  let fraction : Nat := bits.toNat % hidden
  let exponent : Nat := bits.toNat / hidden % 2048
  if exponent = 0 then ⟨fraction, -1074, false⟩
  else ⟨hidden + fraction, exponent - 1075, fraction = 0 ∧ 1 < exponent⟩

/-- The number, the ends of its interval and the grid step `10^e` as multiples of one unit. -/
def scaled (b : Binary) (e : Int) : Nat × Nat × Nat × Nat :=
  let two := Nat.pow 2 (b.q - 2).toNat * Nat.pow 10 (-e).toNat
  let step := Nat.pow 2 (2 - b.q).toNat * Nat.pow 10 e.toNat
  ((4 * b.m) * two, (4 * b.m - if b.least then 1 else 2) * two, (4 * b.m + 2) * two, step)

/-- The point of the grid with step `10^e` that is nearest to the number, if one lies in its
interval. The ends belong to the interval when `m` is even. -/
def onGrid (b : Binary) (e : Int) : Option Nat :=
  let (value, low, high, step) := b.scaled e
  let inside (n : Nat) : Bool :=
    if b.m % 2 = 0 then low ≤ n * step ∧ n * step ≤ high else low < n * step ∧ n * step < high
  let below := value / step
  let rest := value % step
  let nearer := if 2 * rest < step ∨ (2 * rest = step ∧ below % 2 = 0) then below else below + 1
  let farther := if nearer = below then below + 1 else below
  if inside nearer then some nearer else if inside farther then some farther else none

/-- The exponent of the first decimal place of the number. -/
def magnitude (b : Binary) : Int :=
  let guess : Int := (b.q + b.m.log2) * 30103 / 100000
  let reached (e : Int) : Bool :=
    let (value, _, _, step) := b.scaled e
    step ≤ value
  if reached (guess + 1) then guess + 1 else if reached guess then guess else guess - 1

/-- The digits on the coarsest grid that has a point in the interval; seventeen always do. -/
def shortest (b : Binary) : Digits :=
  let attempt (n : Nat) : Option Digits :=
    (b.onGrid (b.magnitude - n)).map (⟨·, b.magnitude - n⟩)
  ((List.range 17).findSome? attempt).getD ⟨b.m, b.q⟩

end Binary

/-- Moves the zeros at the end of the digits into the exponent. -/
def Digits.trim (d : Digits) : (places : Nat) → Digits
  | 0 => d
  | places + 1 =>
    if d.digits ≠ 0 ∧ d.digits % 10 = 0 then Digits.trim ⟨d.digits / 10, d.exponent + 1⟩ places
    else d

/-- Positional with a point from `0.00001` up to sixteen places before the point, otherwise with a
signed exponent, whose plus sign is written. -/
def Digits.text (d : Digits) : String :=
  let digits := d.digits.repr
  let point : Int := digits.length + d.exponent
  if 0 < point ∧ point ≤ 16 then
    if 0 ≤ d.exponent then digits ++ String.ofList (List.replicate d.exponent.toNat '0') ++ ".0"
    else
      String.ofList (digits.toList.take point.toNat) ++ "." ++
        String.ofList (digits.toList.drop point.toNat)
  else if -5 < point ∧ point ≤ 0 then
    "0." ++ String.ofList (List.replicate (-point).toNat '0') ++ digits
  else
    let e := point - 1
    let fraction := String.ofList (digits.toList.drop 1)
    String.ofList (digits.toList.take 1) ++ (if fraction = "" then "" else "." ++ fraction) ++
      (if 0 ≤ e then "e+" ++ e.toNat.repr else "e-" ++ (-e).toNat.repr)

/-- The text of a finite number; zero keeps its sign. -/
def text (x : Float) : String :=
  let size := x.toBits &&& 0x7FFFFFFFFFFFFFFF
  let unsigned :=
    if size = 0 then "0.0" else ((Binary.ofBits size).shortest.trim 17).text
  if size = x.toBits then unsigned else "-" ++ unsigned

end FiniteAutomata.Decimal
