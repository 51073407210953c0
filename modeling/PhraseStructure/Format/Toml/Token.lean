/-!
# Tokens of TOML

A TOML text is a sequence of tokens: marks, bare words, strings, blanks, comments and line ends.  A carriage
return before a line feed belongs to the line end.

## Main definitions

* `Toml.Token`: the kinds of tokens.
* `Toml.tokenize`: the tokens of a text, if it has only such.
-/

namespace PhraseStructure.Toml

/-- A token of a TOML text. -/
inductive Token where
  /-- Spaces and tabs, as many as there are in a row. -/
  | blank (single : Bool)
  /-- The end of a line. -/
  | newline
  /-- A comment. -/
  | comment
  /-- A mark: one of `= . , : + { } [ ]`. -/
  | mark (c : Char)
  /-- Letters, digits, hyphens and underscores in a row. -/
  | word (chars : List Char)
  /-- A string, and whether it may go over several lines. -/
  | string (chars : List Char) (multiline : Bool)
deriving DecidableEq, Repr

/-- The characters of bare words. -/
def isWordChar (c : Char) : Bool :=
  ('A' ≤ c && c ≤ 'Z') || ('a' ≤ c && c ≤ 'z') || ('0' ≤ c && c ≤ '9') || c = '-' || c = '_'

/-- The characters that are marks. -/
def isMark (c : Char) : Bool :=
  ['=', '.', ',', ':', '+', '\x7b', '\x7d', '[', ']'].contains c

/-- The characters that may stand in a comment. -/
def isCommentChar (c : Char) : Bool :=
  c = '\t' || 0x20 ≤ c.toNat

/-- The characters that may stand in a string as they are. -/
def isStringChar (c : Char) : Bool :=
  c = '\t' || (0x20 ≤ c.toNat && c.toNat ≠ 0x7f)

/-- Blanks within a line. -/
def isBlank (c : Char) : Bool :=
  c = ' ' || c = '\t'

/-- The value of a hexadecimal digit. -/
def hexValue? (c : Char) : Option Nat :=
  if '0' ≤ c ∧ c ≤ '9' then some (c.toNat - '0'.toNat)
  else if 'a' ≤ c ∧ c ≤ 'f' then some (c.toNat - 'a'.toNat + 10)
  else if 'A' ≤ c ∧ c ≤ 'F' then some (c.toNat - 'A'.toNat + 10)
  else none

/-- The character with a given code, if there is one. -/
def charOfCode? (n : Nat) : Option Char :=
  if Nat.isValidChar n then some (Char.ofNat n) else none

/-- The character given by a number of hexadecimal digits, and the rest of the text. -/
def codeEscape (length : Nat) (cs : List Char) : Option (Char × List Char) := do
  let digits := cs.take length
  guard (digits.length = length)
  let values ← digits.mapM hexValue?
  let c ← charOfCode? (values.foldl (fun n d => 16 * n + d) 0)
  return (c, cs.drop length)

/-- What a backslash in a basic string stands for, and the rest of the text.  In a string over several lines
it may also hide a line end and all blanks and line ends behind it. -/
def escape (multiline : Bool) : List Char → Option (List Char × List Char)
  | '"' :: cs => some (['"'], cs)
  | '\\' :: cs => some (['\\'], cs)
  | 'b' :: cs => some (['\x08'], cs)
  | 'f' :: cs => some (['\x0c'], cs)
  | 'n' :: cs => some (['\n'], cs)
  | 'r' :: cs => some (['\r'], cs)
  | 't' :: cs => some (['\t'], cs)
  | 'u' :: cs => (codeEscape 4 cs).map fun (c, rest) => ([c], rest)
  | 'U' :: cs => (codeEscape 8 cs).map fun (c, rest) => ([c], rest)
  | cs =>
    match multiline, cs.dropWhile isBlank with
    | true, '\n' :: rest => some ([], rest.dropWhile fun c => isBlank c || c = '\n')
    | _, _ => none

/-- Takes up to `bound` further delimiters and gives their number with the rest of the text. -/
def delimiters (delimiter : Char) : Nat → List Char → Nat × List Char
  | 0, cs => (0, cs)
  | bound + 1, c :: cs =>
    if c = delimiter then
      let (n, rest) := delimiters delimiter bound cs
      (n + 1, rest)
    else
      (0, c :: cs)
  | _ + 1, [] => (0, [])

/-- The characters of a string up to its end, and the rest of the text; `bound` limits the number of
characters.  Backslashes have a meaning in basic strings only, which stand in double quotes.  Three delimiters
end a string over several lines, and up to two more belong to its text. -/
def stringChars (delimiter : Char) (multiline : Bool) : Nat → List Char → Option (List Char × List Char)
  | 0, _ => none
  | _ + 1, [] => none
  | bound + 1, c :: cs =>
    if c = delimiter then
      if multiline then
        let (more, rest) := delimiters delimiter 4 cs
        if more < 2 then
          (stringChars delimiter multiline bound rest).map fun (chars, rest) =>
            (List.replicate (more + 1) c ++ chars, rest)
        else
          some (List.replicate (more - 2) c, rest)
      else
        some ([], cs)
    else if c = '\\' ∧ delimiter = '"' then
      match escape multiline cs with
      | none => none
      | some (decoded, rest) =>
        (stringChars delimiter multiline bound rest).map fun (chars, rest) => (decoded ++ chars, rest)
    else if (c = '\n' && multiline) || isStringChar c then
      (stringChars delimiter multiline bound cs).map fun (chars, rest) => (c :: chars, rest)
    else
      none

/-- A string from behind its first delimiter, and the rest of the text.  A line end right after the opening
of a string over several lines does not count. -/
def stringToken (delimiter : Char) (cs : List Char) : Option (Token × List Char) :=
  match delimiters delimiter 2 cs with
  | (1, rest) => some (.string [] false, rest)
  | (2, rest) =>
    let rest := if rest.head? = some '\n' then rest.tail else rest
    (stringChars delimiter true (rest.length + 1) rest).map fun (chars, rest) =>
      (.string chars true, rest)
  | (_, rest) =>
    (stringChars delimiter false (rest.length + 1) rest).map fun (chars, rest) =>
      (.string chars false, rest)

/-- The first token of a text and the rest of the text. -/
def token : List Char → Option (Token × List Char)
  | [] => none
  | c :: cs =>
    if c = '\n' then some (.newline, cs)
    else if isBlank c then
      some (.blank (c = ' ' && !(cs.head?.any isBlank)), cs.dropWhile isBlank)
    else if c = '#' then some (.comment, cs.dropWhile isCommentChar)
    else if isMark c then some (.mark c, cs)
    else if c = '\'' ∨ c = '"' then stringToken c cs
    else if isWordChar c then some (.word (c :: cs.takeWhile isWordChar), cs.dropWhile isWordChar)
    else none

/-- The tokens of a text; the count bounds their number. -/
def tokens : Nat → List Char → Option (List Token)
  | _, [] => some []
  | 0, _ => none
  | count + 1, cs => do
    let (t, rest) ← token cs
    return t :: (← tokens count rest)

/-- Line ends written as a single character. -/
def foldLineEnds : List Char → List Char
  | '\r' :: '\n' :: cs => '\n' :: foldLineEnds cs
  | c :: cs => c :: foldLineEnds cs
  | [] => []

/-- The tokens of a text.  A byte order mark at its front does not count. -/
def tokenize (s : String) : Option (List Token) :=
  let cs := s.toList
  let cs := foldLineEnds (if cs.head? = some '\ufeff' then cs.tail else cs)
  tokens cs.length cs

end PhraseStructure.Toml
