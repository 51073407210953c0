import PhraseStructure.Format.Json.Number
import PhraseStructure.Format.Json.Quote

/-!
# Reading JSON

Values are read from the front of a text, one character after another, and the first thing that is wrong is
what gets reported.  A reader asks for a value of a certain kind; when it meets another kind, it reads that
value as far as it must to tell what was found.

## Main definitions

* `Json.Reader`: reads from a text or fails.
* `Json.string`, `Json.list`, `Json.object`: values of a certain kind.
* `Json.unexpected`: what is wrong with a value of another kind.
* `Json.skipValue`: any value at all.
-/

namespace PhraseStructure.Json

/-- Reads from the front of a text and keeps the rest. -/
abbrev Reader := StateT (List Char) (Except Fault)

/-- Runs a function on the text. -/
def scan {α : Type} (f : List Char → Except Fault (α × List Char)) : Reader α :=
  f

/-- The blanks that may stand between any two pieces. -/
def isSpace (c : Char) : Bool :=
  c = ' ' || c = '\n' || c = '\t' || c = '\r'

/-- Skips blanks and looks at the next character without taking it. -/
def peek : Reader (Option Char) :=
  scan fun cs =>
    let cs := cs.dropWhile isSpace
    .ok (cs.head?, cs)

/-- Takes one character. -/
def take : Reader Unit :=
  scan fun cs => .ok ((), cs.tail)

/-- Takes the given letters, the next characters of the text. -/
def letters : List Char → Reader Unit
  | [] => pure ()
  | c :: cs => do
    match ← get with
    | [] => throw .endsEarly
    | d :: rest =>
      if c = d then do
        set rest
        letters cs
      else
        throw .malformed

/-- The fault of a value that is not of the kind asked for. -/
def unexpected {α : Type} (expected : String) : Reader α := do
  let mismatch (found : Found) : Reader α := throw (.mismatch (.type found expected))
  match ← peek with
  | none => throw .endsEarly
  | some c =>
    if c = 'n' then do letters "null".toList; mismatch .null
    else if c = 't' then do letters "true".toList; mismatch (.boolean true)
    else if c = 'f' then do letters "false".toList; mismatch (.boolean false)
    else if c = '-' then do take; mismatch (← scan (number false)).found
    else if isDigit c then do mismatch (← scan (number true)).found
    else if c = '"' then do take; mismatch (.string (← scan unquote))
    else if c = '[' then mismatch .sequence
    else if c = '\x7b' then mismatch .map
    else throw .malformed

/-- Reads a string; `expected` tells what is asked for. -/
def stringAs (expected : String) : Reader String := do
  match ← peek with
  | some '"' => do take; scan unquote
  | _ => unexpected expected

/-- Reads a string. -/
def string : Reader String :=
  stringAs "a string"

/-! ### Arrays and objects -/

/-- Is there another element before the closing bracket?  Takes the comma that has to stand before every
element but the first. -/
def anotherElement (first : Bool) : Reader Bool := do
  match ← peek with
  | none => throw .endsEarly
  | some ']' => return false
  | some c =>
    if first then return true
    else if c = ',' then do
      take
      match ← peek with
      | none => throw .endsEarly
      | some ']' => throw .malformed
      | some _ => return true
    else throw .malformed

/-- Reads the key of another member before the closing brace, if there is one.  Takes the comma that has to
stand before every member but the first. -/
def anotherKey (first : Bool) : Reader (Option String) := do
  match ← peek with
  | none => throw .endsEarly
  | some '\x7d' => return none
  | some c =>
    if !first then
      if c = ',' then take else throw .malformed
    match ← peek with
    | none => throw .endsEarly
    | some '"' => do take; return some (← scan unquote)
    | some _ => throw .malformed

/-- Takes the colon between a key and its value. -/
def colon : Reader Unit := do
  match ← peek with
  | none => throw .endsEarly
  | some ':' => take
  | some _ => throw .malformed

/-- Takes a closing bracket or brace. -/
def close (c : Char) : Reader Unit := do
  match ← peek with
  | none => throw .endsEarly
  | some d => if c = d then take else throw .malformed

/-- Reads the elements of an array up to its closing bracket; the count bounds their number. -/
def elements {α : Type} (element : Reader α) : Nat → Bool → Reader (List α)
  | 0, _ => throw .malformed
  | count + 1, first => do
    if ← anotherElement first then
      let a ← element
      return a :: (← elements element count false)
    else
      return []

/-- Reads the members of an object up to its closing brace; the count bounds their number. -/
def members {σ : Type} (member : σ → String → Reader σ) : Nat → Bool → σ → Reader σ
  | 0, _, _ => throw .malformed
  | count + 1, first, s => do
    match ← anotherKey first with
    | none => return s
    | some key => members member count false (← member s key)

/-- Reads an array.  Its elements take up at least one character each. -/
def list {α : Type} (element : Reader α) : Reader (List α) := do
  match ← peek with
  | some '[' => do
    take
    let as ← elements element ((← get).length + 1) true
    close ']'
    return as
  | _ => unexpected "a sequence"

/-- Reads an object member by member; `expected` tells what is asked for. -/
def object {σ : Type} (expected : String) (s : σ) (member : σ → String → Reader σ) : Reader σ := do
  match ← peek with
  | some '\x7b' => do
    take
    let s ← members member ((← get).length + 1) true s
    close '\x7d'
    return s
  | _ => unexpected expected

/-! ### Other values -/

/-- Reads a value that may be null. -/
def optional {α : Type} (value : Reader α) : Reader (Option α) := do
  match ← peek with
  | some 'n' => do letters "null".toList; return none
  | _ => return some (← value)

/-- Reads a whole number below 256. -/
def byte : Reader UInt8 := do
  let check (n : Number) : Reader UInt8 :=
    match n with
    | .natural n => if n < 256 then pure n.toUInt8 else throw (.mismatch (.value (.integer n) "u8"))
    | .negative n => throw (.mismatch (.value (.integer (-(n : Int))) "u8"))
    | .double _ => throw (.mismatch (.type n.found "u8"))
  match ← peek with
  | some c =>
    if c = '-' then do take; check (← scan (number false))
    else if isDigit c then do check (← scan (number true))
    else unexpected "u8"
  | none => throw .endsEarly

/-- What encloses a value that is skipped. -/
inductive Enclosure where
  /-- An array. -/
  | array
  /-- An object. -/
  | object
deriving DecidableEq, Repr

/-- The character that closes an enclosure. -/
def Enclosure.closing : Enclosure → Char
  | array => ']'
  | object => '\x7d'

/-- Skips what has to stand before a value inside an enclosure: in an object, a key and a colon. -/
def skipKey : Enclosure → Reader Unit
  | .array => pure ()
  | .object => do
    match ← peek with
    | none => throw .endsEarly
    | some '"' => do
      take
      scan fun cs => (skipString cs).map fun rest => ((), rest)
      colon
    | some _ => throw .malformed

/-- Skips a value and everything up to the end of what encloses it.  `value` tells that a value comes next,
and otherwise a comma or a closing character does.  Every step takes at least one character, so their
number is bounded by the length of the text. -/
def skip : Nat → Bool → List Enclosure → Reader Unit
  | 0, _, _ => throw .malformed
  | _ + 1, false, [] => pure ()
  | count + 1, false, enclosure :: outer => do
    match ← peek with
    | none => throw .endsEarly
    | some c =>
      if c = ',' then do
        take
        skipKey enclosure
        skip count true (enclosure :: outer)
      else if c = enclosure.closing then do
        take
        skip count false outer
      else throw .malformed
  | count + 1, true, outer => do
    let enter (enclosure : Enclosure) : Reader Unit := do
      take
      match ← peek with
      | none => throw .endsEarly
      | some c =>
        if c = enclosure.closing then do
          take
          skip count false outer
        else do
          skipKey enclosure
          skip count true (enclosure :: outer)
    match ← peek with
    | none => throw .endsEarly
    | some c =>
      if c = 'n' then do letters "null".toList; skip count false outer
      else if c = 't' then do letters "true".toList; skip count false outer
      else if c = 'f' then do letters "false".toList; skip count false outer
      else if c = '-' then do
        take
        scan fun cs => (skipNumber cs).map fun rest => ((), rest)
        skip count false outer
      else if isDigit c then do
        scan fun cs => (skipNumber cs).map fun rest => ((), rest)
        skip count false outer
      else if c = '"' then do
        take
        scan fun cs => (skipString cs).map fun rest => ((), rest)
        skip count false outer
      else if c = '[' then enter .array
      else if c = '\x7b' then enter .object
      else throw .malformed

/-- Skips any value. -/
def skipValue : Reader Unit := do
  skip ((← get).length + 2) true []

/-- Reads a value that is all of the text. -/
def run {α : Type} (value : Reader α) (s : String) : Except Fault α :=
  match value s.toList with
  | .error fault => .error fault
  | .ok (a, rest) => if rest.all isSpace then .ok a else .error .malformed

end PhraseStructure.Json
