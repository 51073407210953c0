/-!
# Shortest decimals

Every finite double is the nearest one to a whole interval of real numbers.  Its shortest decimal is the
decimal with the fewest digits in that interval, and of several such the one nearest to the number.

The search works in exact arithmetic: for one digit, two digits and so on, the two neighbours of the number
on the grid of decimals with so many digits are tried.

## Main definitions

* `Binary`: a positive double as a fraction, with the interval of reals that round to it.
* `Decimal`: digits and a power of ten.
* `Binary.shortest`: the shortest decimal of a double.
-/

namespace PhraseStructure

/-- A decimal number: digits times a power of ten. -/
structure Decimal where
  /-- The digits, read as one number. -/
  digits : Nat
  /-- The power of ten. -/
  exponent : Int
deriving DecidableEq, Repr

/-- A positive double and the interval of reals that round to it, all over one denominator. -/
structure Binary where
  /-- The double. -/
  value : Nat
  /-- The lower end of the interval. -/
  low : Nat
  /-- The upper end of the interval. -/
  high : Nat
  /-- The denominator of all three. -/
  denominator : Nat
  /-- Do the ends belong to the interval? -/
  closed : Bool
deriving DecidableEq, Repr

namespace Binary

/-- Decodes a double from its bits; the sign is ignored. -/
def ofBits (bits : UInt64) : Binary :=
  let fraction := bits.toNat % Nat.pow 2 52
  let biased := bits.toNat / Nat.pow 2 52 % Nat.pow 2 11
  let significand := if biased = 0 then fraction else Nat.pow 2 52 + fraction
  -- the number is `4 * significand * 2 ^ exponent`
  let exponent : Int := (max biased 1 : Nat) - 1077
  let scale := Nat.pow 2 exponent.toNat
  -- just above a power of two the doubles below are twice as dense
  let gap := if fraction = 0 && 1 < biased then 1 else 2
  { value := 4 * significand * scale
    low := (4 * significand - gap) * scale
    high := (4 * significand + 2) * scale
    denominator := Nat.pow 2 (-exponent).toNat
    closed := significand % 2 = 0 }

/-- Is `digits * 10 ^ exponent` in the interval? -/
def contains (x : Binary) (digits : Nat) (exponent : Int) : Bool :=
  let n := digits * Nat.pow 10 exponent.toNat * x.denominator
  let low := x.low * Nat.pow 10 (-exponent).toNat
  let high := x.high * Nat.pow 10 (-exponent).toNat
  if x.closed then low ≤ n && n ≤ high else low < n && n < high

/-- The number of digits before the decimal point, or minus the number of zeros right after it.  The first
argument bounds the zeros. -/
def magnitude (x : Binary) (zeros : Nat) : Int :=
  if x.denominator ≤ x.value then
    (Nat.toDigits 10 (x.value / x.denominator)).length
  else
    match (List.range zeros).find? fun j => x.denominator ≤ x.value * Nat.pow 10 (j + 1) with
    | some j => -j
    | none => -zeros

/-- The better of the two neighbours of the number on the grid of multiples of `10 ^ exponent`, if one of
them is in the interval. -/
def neighbour? (x : Binary) (exponent : Int) : Option Decimal :=
  let n := x.value * Nat.pow 10 (-exponent).toNat
  let unit := Nat.pow 10 exponent.toNat * x.denominator
  let below := n / unit
  let nearer := if n - below * unit ≤ (below + 1) * unit - n then [below, below + 1] else [below + 1, below]
  (nearer.find? fun digits => x.contains digits exponent).map fun digits => ⟨digits, exponent⟩

/-- The decimal without zeros at the end of its digits; the first argument bounds their number. -/
def stripZeros : Nat → Decimal → Decimal
  | 0, d => d
  | bound + 1, d =>
    if d.digits % 10 = 0 && d.digits ≠ 0 then stripZeros bound ⟨d.digits / 10, d.exponent + 1⟩ else d

/-- The shortest decimal of a double.  Seventeen digits always tell a double from all others. -/
def shortest (x : Binary) : Decimal :=
  let magnitude := x.magnitude 400
  match (List.range 17).findSome? fun n : Nat => x.neighbour? (magnitude - (n + 1 : Nat)) with
  | some d => stripZeros 20 d
  | none => ⟨0, 0⟩

end Binary

end PhraseStructure
