import PhraseStructure.Format.Json.Fault

/-!
# JSON strings

A string is written between double quotes.  Quotes, backslashes and characters below U+0020 are written with
a backslash; everything else stands for itself.  On reading any character may be given by its four-digit
code, and characters outside the basic plane by a pair of surrogate codes.

## Main definitions

* `Json.escape`, `Json.quote`: writing.
* `Json.unquote`: reading, from behind the opening quote.
-/

namespace PhraseStructure.Json

/-- A digit in lower-case hexadecimal. -/
def hexDigit (n : Nat) : Char :=
  if n < 10 then Char.ofNat ('0'.toNat + n) else Char.ofNat ('a'.toNat + (n - 10))

/-- The value of a hexadecimal digit of either case. -/
def hexValue? (c : Char) : Option Nat :=
  if '0' ≤ c ∧ c ≤ '9' then some (c.toNat - '0'.toNat)
  else if 'a' ≤ c ∧ c ≤ 'f' then some (c.toNat - 'a'.toNat + 10)
  else if 'A' ≤ c ∧ c ≤ 'F' then some (c.toNat - 'A'.toNat + 10)
  else none

/-- How a character is written in a string. -/
def escapeChar (c : Char) : List Char :=
  if c = '"' then ['\\', '"']
  else if c = '\\' then ['\\', '\\']
  else if c = '\n' then ['\\', 'n']
  else if c = '\r' then ['\\', 'r']
  else if c = '\t' then ['\\', 't']
  else if c = '\x08' then ['\\', 'b']
  else if c = '\x0c' then ['\\', 'f']
  else if c.toNat < 0x20 then
    ['\\', 'u', '0', '0', hexDigit (c.toNat / 16), hexDigit (c.toNat % 16)]
  else [c]

/-- How characters are written in a string. -/
def escape (cs : List Char) : List Char :=
  cs.flatMap escapeChar

/-- A string as it is written. -/
def quote (s : String) : List Char :=
  '"' :: escape s.toList ++ ['"']

/-- The character that a letter behind a backslash stands for. -/
def escaped? : Char → Option Char
  | '"' => some '"'
  | '\\' => some '\\'
  | '/' => some '/'
  | 'b' => some '\x08'
  | 'f' => some '\x0c'
  | 'n' => some '\n'
  | 'r' => some '\r'
  | 't' => some '\t'
  | _ => none

/-- Is the code the first half of a pair? -/
def isHighSurrogate (n : Nat) : Bool :=
  0xd800 ≤ n && n ≤ 0xdbff

/-- Is the code the second half of a pair? -/
def isLowSurrogate (n : Nat) : Bool :=
  0xdc00 ≤ n && n ≤ 0xdfff

/-- Where the reading of a string stands. -/
inductive Mode where
  /-- Between characters. -/
  | plain
  /-- Behind a backslash. -/
  | escape
  /-- Inside a four-digit code: the first half of a pair if there is one, and the digits so far. -/
  | code (high : Option Nat) (digits : List Nat)
  /-- Behind the first half of a pair, before the backslash of the second. -/
  | pair (high : Nat)
  /-- Behind the first half of a pair and a backslash. -/
  | pairEscape (high : Nat)
deriving DecidableEq, Repr

/-- The number with the given hexadecimal digits. -/
def hexNumber (digits : List Nat) : Nat :=
  digits.foldl (fun n d => 16 * n + d) 0

/-- What a complete four-digit code brings: a character, or the first half of a pair.  Unless reading is
strict, halves may stand alone. -/
def decode (strict : Bool) (high : Option Nat) (n : Nat) : Except Fault (Option Char × Mode) :=
  match strict, high with
  | false, _ => .ok (some (Char.ofNat n), .plain)
  | true, some high =>
    if isLowSurrogate n then
      .ok (some (Char.ofNat (0x10000 + 0x400 * (high - 0xd800) + (n - 0xdc00))), .plain)
    else
      .error .malformed
  | true, none =>
    if isLowSurrogate n then .error .malformed
    else if isHighSurrogate n then .ok (none, .pair n)
    else .ok (some (Char.ofNat n), .plain)

/-- Reads one character that does not end the string.  `rest` is the text from this character on: a code
that the text is too short for has come to an early end, whatever is left of it. -/
def unquoteChar (strict : Bool) (mode : Mode) (c : Char) (rest : List Char) :
    Except Fault (Option Char × Mode) :=
  match mode with
  | .plain =>
    if c = '\\' then .ok (none, .escape)
    else if c.toNat < 0x20 then .error .malformed
    else .ok (some c, .plain)
  | .escape =>
    if c = 'u' then .ok (none, .code none [])
    else
      match escaped? c with
      | some c => .ok (some c, .plain)
      | none => .error .malformed
  | .code high digits =>
    match hexValue? c with
    | none =>
      .error (if digits.length + (String.ofList rest).utf8ByteSize < 4 then .endsEarly else .malformed)
    | some d =>
      if digits.length = 3 then decode strict high (hexNumber (digits ++ [d]))
      else .ok (none, .code high (digits ++ [d]))
  | .pair high => if c = '\\' then .ok (none, .pairEscape high) else .error .malformed
  | .pairEscape high => if c = 'u' then .ok (none, .code (some high) []) else .error .malformed

/-- Reads the characters of a string up to its closing quote, and gives them with the rest of the text.
Strict reading refuses halves of pairs that stand alone. -/
def unquoteFrom (strict : Bool) : Mode → List Char → Except Fault (List Char × List Char)
  | _, [] => .error .endsEarly
  | mode, c :: cs =>
    if mode = .plain ∧ c = '"' then
      .ok ([], cs)
    else
      match unquoteChar strict mode c (c :: cs) with
      | .error fault => .error fault
      | .ok (decoded, mode) =>
        match unquoteFrom strict mode cs with
        | .error fault => .error fault
        | .ok (chars, rest) => .ok (decoded.toList ++ chars, rest)

/-- Reads a string from behind its opening quote, and gives it with the rest of the text. -/
def unquote (cs : List Char) : Except Fault (String × List Char) :=
  (unquoteFrom true .plain cs).map fun (chars, rest) => (String.ofList chars, rest)

/-- Skips a string from behind its opening quote. -/
def skipString (cs : List Char) : Except Fault (List Char) :=
  (unquoteFrom false .plain cs).map (·.2)

end PhraseStructure.Json
