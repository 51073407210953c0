import PhraseStructure.Description

/-!
# The text format of grammars

Grammars are written for people like this:

    N = { S }
    T = { a, b }
    start = S
    S -> aSb | ε ;

Blanks, line ends and comments from `#` to the end of the line may stand between any two pieces.  Pieces are
read greedily and without a second thought: a repetition takes all it can get, and only the attempt that
ended it is undone.

Whatever could not be read is noted together with the place, as a `Miss`.  An error points at the furthest
place where something was missed and lists all that was missed there.

## Main definitions

* `RuleText.Reader`: readers that note what they missed.
* `RuleText.description`: the format.
* `RuleText.parse`: the description in a text, or where the text goes wrong.
-/

namespace PhraseStructure.RuleText

/-! ### Readers that note what they missed -/

/-- What a reader may ask for. -/
inductive Piece where
  /-- Some fixed text. -/
  | text (s : String)
  /-- A character of a name. -/
  | nameChar
  /-- A character of a side of a rule. -/
  | sideChar
  /-- The end of the text. -/
  | ending
deriving DecidableEq, Repr

/-- How a piece is called in an error. -/
def Piece.name : Piece → String
  | text s => "\"" ++ s ++ "\""
  | nameChar => "[^ ' ' | '\\t' | '\\r' | '\\n' | ',' | '\x7b' | '\x7d' | ';' | '|']"
  | sideChar => "[^ ' ' | '\\t' | '\\r' | '\\n' | ';' | '|']"
  | ending => "EOF"

/-- A piece that was asked for in vain, and how many characters were left there. -/
structure Miss where
  /-- The number of characters left. -/
  left : Nat
  /-- What was asked for. -/
  piece : Piece
deriving DecidableEq, Repr

/-- Reads from the front of a text: the value read with the rest of the text, or nothing, and in either case
all that was missed on the way. -/
def Reader (α : Type) : Type :=
  List Char → Option (α × List Char) × List Miss

namespace Reader

variable {α β : Type}

/-- Reads nothing. -/
def pure (a : α) : Reader α :=
  fun cs => (some (a, cs), [])

/-- Reads one thing and then another. -/
def bind (reader : Reader α) (next : α → Reader β) : Reader β :=
  fun cs =>
    match reader cs with
    | (none, misses) => (none, misses)
    | (some (a, rest), misses) =>
      let (result, more) := next a rest
      (result, misses ++ more)

instance : Monad Reader where
  pure := pure
  bind := bind

/-- Reads a fixed text. -/
def text (s : String) : Reader Unit :=
  fun cs =>
    match stripFront s.toList cs with
    | some rest => (some ((), rest), [])
    | none => (none, [⟨cs.length, .text s⟩])

/-- Reads the same thing as often as it will go, at most as often as the count says. -/
def repeated (reader : Reader α) : Nat → Reader (List α)
  | 0, cs => (some ([], cs), [])
  | count + 1, cs =>
    match reader cs with
    | (none, misses) => (some ([], cs), misses)
    | (some (a, rest), misses) =>
      let (result, more) := repeated reader count rest
      (result.map fun (as, rest) => (a :: as, rest), misses ++ more)

/-- Reads the same thing as often as it will go.  Whatever is read has at least one character, so one
attempt more than there are characters is enough. -/
def many (reader : Reader α) : Reader (List α) :=
  fun cs => repeated reader (cs.length + 1) cs

/-- Reads any number of things with something between them. -/
def separatedBy (reader : Reader α) (separator : Reader Unit) : Reader (List α) :=
  fun cs =>
    match reader cs with
    | (none, misses) => (some ([], cs), misses)
    | (some (a, rest), misses) =>
      let (result, more) := many (bind separator fun _ => reader) rest
      (result.map fun (as, rest) => (a :: as, rest), misses ++ more)

end Reader

/-! ### The pieces of the format -/

/-- Blanks and line ends. -/
def isSpace (c : Char) : Bool :=
  c = ' ' || c = '\t' || c = '\r' || c = '\n'

/-- The characters of a side of a rule. -/
def isSideChar (c : Char) : Bool :=
  !(isSpace c || c = ';' || c = '|')

/-- The characters of a name. -/
def isNameChar (c : Char) : Bool :=
  isSideChar c && !(c = ',' || c = '\x7b' || c = '\x7d')

/-- What is left after the layout at the front of a text; `comment` tells that a comment is under way. -/
def skipLayout (comment : Bool) : List Char → List Char
  | [] => []
  | c :: cs =>
    if comment then
      if c = '\n' then skipLayout false cs else skipLayout true cs
    else if isSpace c then
      skipLayout false cs
    else if c = '#' then
      skipLayout true cs
    else
      c :: cs

/-- Skips blanks, line ends and comments.  Nothing is ever missed here. -/
def layout : Reader Unit :=
  fun cs => (some ((), skipLayout false cs), [])

/-- Reads as many characters of a class as there are, and at least one. -/
def token (isMember : Char → Bool) (piece : Piece) : Reader String :=
  fun cs =>
    let rest := cs.dropWhile isMember
    let misses := [⟨rest.length, piece⟩]
    match cs.takeWhile isMember with
    | [] => (none, misses)
    | chars => (some (String.ofList chars, rest), misses)

/-- Reads a name. -/
def name : Reader String :=
  token isNameChar .nameChar

/-- Reads an alternative. -/
def alternative : Reader String :=
  token isSideChar .sideChar

/-- The characters of a left side at the front of a text: they end before an arrow. -/
def leftChars : List Char → List Char
  | [] => []
  | c :: cs =>
    if isSideChar c && !(['-', '>'].isPrefixOf (c :: cs)) then c :: leftChars cs else []

/-- Reads a left side.  An arrow ends it without being missed. -/
def leftSide : Reader String :=
  fun cs =>
    let chars := leftChars cs
    let rest := cs.drop chars.length
    let misses := if ['-', '>'].isPrefixOf rest then [] else [⟨rest.length, .sideChar⟩]
    match chars with
    | [] => (none, misses)
    | chars => (some (String.ofList chars, rest), misses)

/-- Reads names in braces. -/
def nameList : Reader (List String) := do
  Reader.text "\x7b"
  layout
  let names ← Reader.separatedBy name do layout; Reader.text ","; layout
  layout
  Reader.text "\x7d"
  return names

/-- Reads a heading, an equals sign and what is declared. -/
def declaration {α : Type} (heading : String) (reader : Reader α) : Reader α := do
  Reader.text heading
  layout
  Reader.text "="
  layout
  reader

/-- Reads a rule with all its alternatives. -/
def production : Reader (String × List String) := do
  let left ← leftSide
  layout
  Reader.text "->"
  layout
  let first ← alternative
  let more ← Reader.many do layout; Reader.text "|"; layout; alternative
  layout
  Reader.text ";"
  return (left, first :: more)

/-- Reads a whole description, up to the layout at its end. -/
def description : Reader Description := do
  layout
  let nonterminals ← declaration "N" nameList
  layout
  let terminals ← declaration "T" nameList
  layout
  let start ← declaration "start" name
  layout
  let productions ← Reader.separatedBy production layout
  layout
  return { nonterminals, terminals, productions, start }

/-- Reads nothing at the end of a text, and misses the end anywhere else. -/
def ending : Reader Unit :=
  fun cs => if cs = [] then (some ((), []), []) else (none, [⟨cs.length, .ending⟩])

/-! ### Errors -/

/-- Where a text goes wrong: line and column, from one on, and the pieces missed there. -/
structure Mistake where
  /-- The line. -/
  line : Nat
  /-- The column in the line. -/
  column : Nat
  /-- The names of what was missed, in order and without repetition. -/
  expected : List String
deriving DecidableEq, Repr

namespace Mistake

/-- The place behind some characters, and the names of the pieces missed there. -/
def after (before : List Char) (pieces : List Piece) : Mistake where
  line := before.count '\n' + 1
  column := (before.reverse.takeWhile (· ≠ '\n')).length + 1
  expected := ((pieces.map Piece.name).mergeSort fun a b => decide (a ≤ b)).eraseDups

/-- How far the reader got that missed the pieces: the least number of characters left. -/
def furthest (length : Nat) (misses : List Miss) : Nat :=
  misses.foldl (fun left miss => min left miss.left) length

/-- The furthest mistake in a text. -/
def ofMisses (cs : List Char) (misses : List Miss) : Mistake :=
  let left := furthest cs.length misses
  after (cs.take (cs.length - left)) ((misses.filter fun miss => miss.left = left).map Miss.piece)

/-- The wording of a mistake. -/
def message (m : Mistake) : String :=
  let expected :=
    match m.expected with
    | [piece] => piece
    | pieces => "one of " ++ ", ".intercalate pieces
  s!"error at {m.line}:{m.column}: expected {expected}"

end Mistake

/-- The description that a text holds, or the furthest place where the text goes wrong. -/
def parse (s : String) : Except Mistake Description :=
  match (Reader.bind description fun d => Reader.bind ending fun _ => Reader.pure d) s.toList with
  | (some (d, _), _) => .ok d
  | (none, misses) => .error (.ofMisses s.toList misses)

end PhraseStructure.RuleText
