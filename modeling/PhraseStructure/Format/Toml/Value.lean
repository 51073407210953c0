import PhraseStructure.Format.Toml.Token

/-!
# Values of TOML

Values are read from a list of tokens.  Integers are kept; of all other values it only matters that they are
properly written, so reading one gives no more than its kind.

## Main definitions

* `Toml.Value`: an integer, a table of dotted keys, or anything else.
* `Toml.value`: reading a value.
-/

namespace PhraseStructure.Toml

/-- A value, as far as it matters. -/
inductive Value where
  /-- An integer of 64 bits. -/
  | integer (n : Int)
  /-- A table that came about by dotted keys. -/
  | dotted (entries : List (List Char × Value))
  /-- Any other value. -/
  | other
deriving Repr

/-- Keys with their values, in order. -/
abbrev Entries := List (List Char × Value)

/-- Reads from a list of tokens and keeps the rest. -/
abbrev Reader := StateT (List Token) Option

/-- Looks at the next token without taking it. -/
def peek : Reader (Option Token) := do
  return (← get).head?

/-- Takes the next token. -/
def next : Reader Token := do
  match ← get with
  | [] => failure
  | t :: rest => do
    set rest
    return t

/-- Takes a mark if it comes next. -/
def eat (c : Char) : Reader Bool := do
  if (← peek) = some (.mark c) then do
    discard next
    return true
  else
    return false

/-- Takes a mark that has to come next. -/
def expect (c : Char) : Reader Unit := do
  guard (← eat c)

/-- Skips blanks within a line. -/
def skipBlank : Reader Unit := do
  match ← peek with
  | some (.blank _) => discard next
  | _ => pure ()

/-- Takes the end of a line or of the text. -/
def lineEnd : Reader Unit := do
  match ← peek with
  | none => pure ()
  | some .newline => discard next
  | some _ => failure

/-- Takes a comment with the end of its line, if there is one. -/
def comment : Reader Bool := do
  if (← peek) = some .comment then do
    discard next
    lineEnd
    return true
  else
    return false

/-- Takes a bare word. -/
def bareWord : Reader (List Char) := do
  match ← next with
  | .word chars => return chars
  | _ => failure

/-- Takes a key: a bare word or a string on one line. -/
def key : Reader (List Char) := do
  match ← next with
  | .word chars => return chars
  | .string chars false => return chars
  | _ => failure

/-- Takes further keys, each behind a dot; the count bounds their number. -/
def moreKeys : Nat → Reader (List (List Char))
  | 0 => failure
  | count + 1 => do
    skipBlank
    if ← eat '.' then do
      skipBlank
      let k ← key
      return k :: (← moreKeys count)
    else
      return []

/-- Takes a key with dots in it. -/
def dottedKey : Reader (List Char × List (List Char)) := do
  let first ← key
  return (first, ← moreKeys ((← get).length + 1))

/-! ### Numbers -/

/-- The value of a digit in some base. -/
def digitValue? (base : Nat) (c : Char) : Option Nat :=
  match hexValue? c with
  | some d => if d < base then some d else none
  | none => none

/-- The part of a text before two underscores in a row, with the first of them. -/
def cutAtDouble : List Char → List Char
  | '_' :: '_' :: _ => ['_']
  | c :: cs => c :: cutAtDouble cs
  | [] => []

/-- How far digits in some base go: the digits and the rest.  An underscore has to stand between two digits,
and unless they are allowed no zero stands before other digits. -/
def digitRun (base : Nat) (leadingZeros : Bool) (cs : List Char) : Option (List Nat × List Char) := do
  let run := cutAtDouble (cs.takeWhile fun c => c = '_' || (digitValue? base c).isSome)
  let digits := run.filterMap (digitValue? base)
  guard (digits ≠ [] ∧ run.head? ≠ some '_' ∧ run.getLast? ≠ some '_')
  guard (leadingZeros || digits.length = 1 || digits.head? ≠ some 0)
  return (digits, cs.drop run.length)

/-- Digits behind a sign, if a sign is allowed: whether the sign is a minus, the digits and the rest. -/
def signedRun (leadingZeros : Bool) : List Char → Option (Bool × List Nat × List Char)
  | '-' :: cs => (digitRun 10 leadingZeros cs).map fun (ds, rest) => (true, ds, rest)
  | '+' :: cs => (digitRun 10 leadingZeros cs).map fun (ds, rest) => (false, ds, rest)
  | cs => (digitRun 10 leadingZeros cs).map fun (ds, rest) => (false, ds, rest)

/-- The number with the given digits. -/
def numberOf (base : Nat) (digits : List Nat) : Nat :=
  digits.foldl (fun n d => base * n + d) 0

/-- An integer, if it fits into 64 bits with a sign. -/
def integer? (negative : Bool) (n : Nat) : Option Value :=
  let i : Int := if negative then -n else n
  let limit : Int := Nat.pow 2 63
  if -limit ≤ i ∧ i < limit then some (.integer i) else none

/-- Is the number with these digits before and after the point times a power of ten in the range of doubles?
The largest double lies just below the 309-digit number `limit`. -/
def isFinite (whole fraction : List Nat) (exponent : Int) : Bool :=
  let digits := (whole ++ fraction).dropWhile (· = 0)
  let magnitude : Int := digits.length + exponent - fraction.length
  let limit := Nat.pow 2 1024 - Nat.pow 2 970
  if digits = [] ∨ magnitude < 309 then true
  else if 309 < magnitude then false
  else numberOf 10 (digits.take 309) * Nat.pow 10 (309 - digits.length) < limit

/-- The exponent of a float from behind its mark.  If the mark ends its word, the exponent is a word of its
own, perhaps behind a plus. -/
def exponentPart : List Char → Reader Int
  | [] => do
    discard (eat '+')
    let (ds, rest) ← (digitRun 10 true (← bareWord) : Option _)
    guard (rest = [])
    return numberOf 10 ds
  | cs => do
    let (negative, ds, rest) ← (signedRun true cs : Option _)
    guard (rest = [])
    return if negative then -numberOf 10 ds else numberOf 10 ds

/-- A float whose digits before the point are in `cs`, and after it in `fraction`. -/
def float (cs : List Char) (fraction : Option (List Char)) : Reader Value := do
  let (_, whole, rest) ← (signedRun false cs : Option _)
  let (after, rest) ←
    match fraction with
    | none => pure ([], rest)
    | some chars => do
      guard (rest = [])
      (digitRun 10 true chars : Option _)
  let exponent ←
    match rest with
    | [] => pure 0
    | c :: cs => do
      guard (c = 'e' ∨ c = 'E')
      exponentPart cs
  guard (isFinite whole after exponent)
  return .other

/-- An integer in some base, all of `cs`. -/
def integerIn (base : Nat) (cs : List Char) : Option Value := do
  let (ds, rest) ← digitRun base true cs
  guard (rest = [])
  integer? false (numberOf base ds)

/-- A number that starts with the word `cs`. -/
def number (cs : List Char) : Reader Value := do
  match cs with
  | '0' :: 'x' :: cs => (integerIn 16 cs : Option _)
  | '0' :: 'o' :: cs => (integerIn 8 cs : Option _)
  | '0' :: 'b' :: cs => (integerIn 2 cs : Option _)
  | cs =>
    if cs.contains 'e' || cs.contains 'E' then
      float cs none
    else if ← eat '.' then do
      float cs (some (← bareWord))
    else if ["inf", "-inf", "nan", "-nan"].contains (String.ofList cs) then
      return .other
    else do
      let (negative, ds, rest) ← (signedRun false cs : Option _)
      guard (rest = [])
      (integer? negative (numberOf 10 ds) : Option _)

/-! ### Dates -/

/-- Is there an exponent with a minus in a word? -/
def hasNegativeExponent : List Char → Bool
  | c :: d :: cs => ((c = 'e' || c = 'E') && d = '-') || hasNegativeExponent (d :: cs)
  | _ => false

/-- Does a word begin a date, by a hyphen behind its first character or by a `T`? -/
def looksLikeDate (cs : List Char) : Bool :=
  cs.contains 'T' || cs.contains 't' || (cs.tail.contains '-' && !hasNegativeExponent cs)

/-- A date or a time of day that starts with a word taken before.  Whether its numbers make sense does not
matter. -/
def date (colonTaken : Bool) : Reader Value := do
  match ← get with
  | .blank true :: .word _ :: rest => set rest
  | _ => pure ()
  let colon ← if colonTaken then pure true else eat ':'
  if colon then do
    discard bareWord
    expect ':'
    discard bareWord
    if ← eat '.' then discard bareWord
    if ← eat '+' then discard bareWord
    if ← eat ':' then discard bareWord
  return .other

/-- A number or a date that starts with the word `cs`. -/
def numberOrDate (cs : List Char) : Reader Value := do
  if looksLikeDate cs then date false
  else if ← eat ':' then date true
  else number cs

/-! ### Tables and arrays -/

/-- Adds a value under a dotted key.  Every key but the last has to be new or to stand for a table that came
about the same way. -/
def addEntry (value : Value) : List Char → List (List Char) → Entries → Option Entries
  | k, [], entries => some (entries ++ [(k, value)])
  | k, k' :: ks, entries =>
    match entries.findIdx? fun entry => entry.1 = k with
    | none => do
      let inner ← addEntry value k' ks []
      return entries ++ [(k, .dotted inner)]
    | some i =>
      match entries[i]? with
      | some (_, .dotted inner) => do
        let inner ← addEntry value k' ks inner
        return entries.set i (k, .dotted inner)
      | _ => none

/-- Skips blanks, line ends and comments; the count bounds the steps. -/
def skipLines : Nat → Reader Unit
  | 0 => failure
  | count + 1 => do
    skipBlank
    if (← peek) = some .newline then do
      discard next
      skipLines count
    else if ← comment then
      skipLines count
    else
      pure ()

mutual

/-- Takes a value; the first argument bounds how deep values stand in each other and how many there are. -/
def value : Nat → Reader Value
  | 0 => failure
  | bound + 1 => do
    match ← next with
    | .string _ _ => return .other
    | .word chars =>
      if chars = "true".toList ∨ chars = "false".toList then
        return .other
      else if chars = "inf".toList ∨ chars = "nan".toList ∨
          chars.head?.any (fun c => c = '-' || ('0' ≤ c && c ≤ '9')) then
        numberOrDate chars
      else
        failure
    | .mark '+' => do number (← bareWord)
    | .mark '\x7b' => do
      skipBlank
      if ← eat '\x7d' then return .other
      inlineTable bound []
    | .mark '[' => array bound
    | _ => failure

/-- Takes the entries of a table up to its closing brace. -/
def inlineTable : Nat → Entries → Reader Value
  | 0, _ => failure
  | bound + 1, entries => do
    let (k, ks) ← dottedKey
    skipBlank
    expect '='
    skipBlank
    let v ← value bound
    let entries ← (addEntry v k ks entries : Option _)
    skipBlank
    if ← eat '\x7d' then return .other
    expect ','
    skipBlank
    inlineTable bound entries

/-- Takes the elements of an array up to its closing bracket; a comma may stand behind the last one. -/
def array : Nat → Reader Value
  | 0 => failure
  | bound + 1 => do
    skipLines ((← get).length + 1)
    if ← eat ']' then return .other
    discard (value bound)
    skipLines ((← get).length + 1)
    if ← eat ',' then
      array bound
    else do
      expect ']'
      return .other

end

end PhraseStructure.Toml
