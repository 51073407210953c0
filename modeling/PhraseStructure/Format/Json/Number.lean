import PhraseStructure.Format.Json.Fault

/-!
# JSON numbers

A number is a sign, digits, perhaps a fraction and perhaps an exponent.  A number without fraction and
exponent is whole as long as it fits into 64 bits; every other number is a double.  The digits of a double
are collected up to 64 bits, further digits only move the decimal point, and the double is then scaled by a
power of ten.

## Main definitions

* `Json.Number`: a number that was read.
* `Json.number`: reading a number from behind its sign.
* `Json.skipNumber`: the same without its value.
-/

namespace PhraseStructure.Json

/-- A number that was read. -/
inductive Number where
  /-- A whole number that is not negative. -/
  | natural (n : Nat)
  /-- A negative whole number, by its absolute value. -/
  | negative (n : Nat)
  /-- A double. -/
  | double (x : Float)

/-! ### The text of a double -/

/-- The text of a decimal with the given digits: positional for magnitudes from -4 to 16, and otherwise with
an exponent behind the first digit. -/
def decimalText (d : Decimal) : String :=
  let digits := Nat.toDigits 10 d.digits
  let magnitude := digits.length + d.exponent
  let zeros (n : Int) := List.replicate n.toNat '0'
  String.ofList <|
    if 0 ≤ d.exponent ∧ magnitude ≤ 16 then digits ++ zeros d.exponent ++ ['.', '0']
    else if 0 < magnitude ∧ magnitude ≤ 16 then
      digits.take magnitude.toNat ++ ['.'] ++ digits.drop magnitude.toNat
    else if -5 < magnitude ∧ magnitude ≤ 0 then ['0', '.'] ++ zeros (-magnitude) ++ digits
    else
      digits.take 1 ++ (if digits.length = 1 then [] else '.' :: digits.drop 1) ++
        'e' :: (toString (magnitude - 1)).toList

/-- The text of a finite double; it always shows that it is one. -/
def doubleText (x : Float) : String :=
  let sign := if x.toBits.toNat < Nat.pow 2 63 then "" else "-"
  sign ++ if x == 0 then "0.0" else decimalText (Binary.ofBits x.toBits).shortest

/-- A number where something else was asked for. -/
def Number.found : Number → Found
  | natural n => .integer n
  | negative n => .integer (-(n : Int))
  | double x => .floating (doubleText x)

/-! ### Reading -/

/-- The decimal digits. -/
def isDigit (c : Char) : Bool :=
  '0' ≤ c && c ≤ '9'

/-- Appends digits to a significand as long as it fits into 64 bits.  Gives the significand and the number
of digits that were left over. -/
def collect (significand : Nat) : List Char → Nat × Nat
  | [] => (significand, 0)
  | c :: cs =>
    let next := 10 * significand + (c.toNat - '0'.toNat)
    if Nat.pow 2 64 ≤ next then (significand, cs.length + 1) else collect next cs

/-- A power of ten as a double. -/
def powerOfTen (n : Nat) : Float :=
  OfScientific.ofScientific 1 false n

/-- A significand times a power of ten, if that is in the range of doubles.  Very small numbers are scaled
in two goes. -/
def scaled? (significand : Nat) (exponent : Int) : Option Float :=
  let x := Float.ofNat significand
  if significand = 0 then some x
  else if 308 < exponent then none
  else if 0 ≤ exponent then
    let y := x * powerOfTen exponent.toNat
    if y.isInf then none else some y
  else if -308 ≤ exponent then some (x / powerOfTen (-exponent).toNat)
  else if -616 ≤ exponent then some (x / powerOfTen 308 / powerOfTen (-exponent - 308).toNat)
  else some 0

/-- A double with a sign; a number beyond the range of doubles is malformed. -/
def double (positive : Bool) (significand : Nat) (exponent : Int) : Except Fault Number :=
  match scaled? significand exponent with
  | some x => .ok (.double (if positive then x else -x))
  | none => .error .malformed

/-- Digits at the front of a text, at least one of them, and the rest of the text. -/
def digits (cs : List Char) : Except Fault (List Char × List Char) :=
  match cs.takeWhile isDigit, cs.dropWhile isDigit with
  | [], [] => .error .endsEarly
  | [], _ => .error .malformed
  | ds, rest => .ok (ds, rest)

/-- Is the character the mark of an exponent? -/
def isExponentMark (c : Char) : Bool :=
  c = 'e' || c = 'E'

/-- The sign of an exponent and the rest of the text; no sign is the same as a plus. -/
def exponentSign : List Char → Bool × List Char
  | '+' :: cs => (true, cs)
  | '-' :: cs => (false, cs)
  | cs => (true, cs)

/-- Reads the exponent of a double, if there is one, and makes up the double. -/
def exponentPart (positive : Bool) (significand : Nat) (exponent : Int) (cs : List Char) :
    Except Fault (Number × List Char) := do
  match cs with
  | c :: cs =>
    if isExponentMark c then
      let (upward, cs) := exponentSign cs
      let (ds, rest) ← digits cs
      let shift := (collect 0 ds).1
      if Nat.pow 2 31 ≤ shift then
        -- the exponent itself is out of range
        if upward && significand ≠ 0 then throw .malformed
        return (← double positive 0 0, rest)
      return (← double positive significand (if upward then exponent + shift else exponent - shift), rest)
    else
      return (← double positive significand exponent, c :: cs)
  | [] => return (← double positive significand exponent, [])

/-- A whole number with a sign, if it has no more than 64 bits.  Minus zero is a double. -/
def whole (positive : Bool) (n : Nat) : Except Fault Number :=
  if positive then .ok (.natural n)
  else if 0 < n ∧ n ≤ Nat.pow 2 63 then .ok (.negative n)
  else double false n 0

/-- Reads a number from behind its sign, and gives it with the rest of the text. -/
def number (positive : Bool) (cs : List Char) : Except Fault (Number × List Char) := do
  let (ds, rest) ← digits cs
  if ds.head? = some '0' && 1 < ds.length then
    throw .malformed
  let (significand, dropped) := collect 0 ds
  match rest with
  | '.' :: rest =>
    let (fraction, rest) ← digits rest
    let (significand, unused) := collect significand fraction
    exponentPart positive significand (dropped - (fraction.length - unused)) rest
  | c :: _ =>
    if isExponentMark c || 0 < dropped then exponentPart positive significand dropped rest
    else return (← whole positive significand, rest)
  | [] =>
    if 0 < dropped then exponentPart positive significand dropped rest
    else return (← whole positive significand, rest)

/-- Skips digits, at least one of them. -/
def skipDigits (cs : List Char) : Except Fault (List Char) :=
  if cs.takeWhile isDigit = [] then .error .malformed else .ok (cs.dropWhile isDigit)

/-- Skips an exponent, if there is one. -/
def skipExponent : List Char → Except Fault (List Char)
  | c :: cs => if isExponentMark c then skipDigits (exponentSign cs).2 else .ok (c :: cs)
  | [] => .ok []

/-- Skips a number from behind its sign.  Its value does not matter, only its form. -/
def skipNumber (cs : List Char) : Except Fault (List Char) := do
  let rest ← skipDigits cs
  if cs.head? = some '0' && (cs.tail.head?.any isDigit) then
    throw .malformed
  match rest with
  | '.' :: rest => skipExponent (← skipDigits rest)
  | rest => skipExponent rest

end PhraseStructure.Json
