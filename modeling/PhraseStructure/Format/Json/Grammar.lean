import PhraseStructure.Description
import PhraseStructure.Format.Json.Reader

/-!
# Descriptions in JSON

A description is stored as an object with a field for each of its parts.  Productions are an object too,
whose members keep their order and may repeat a left side.  Level and direction may be null or left out.
Fields that are not known are skipped.  An array with the parts in order will also do.

## Main definitions

* `Json.print`: a description as JSON, indented for people to read.
* `Json.description`, `Json.parse`: a description from JSON.
-/

namespace PhraseStructure.Json

/-! ### Writing -/

/-- A new line with the margin of some depth. -/
def newLine (depth : Nat) : List Char :=
  '\n' :: List.replicate (2 * depth) ' '

/-- Entries between an opening and a closing character, each on a line of its own. -/
def block (opening closing : Char) (depth : Nat) : List (List Char) → List Char
  | [] => [opening, closing]
  | entry :: entries =>
    opening :: newLine (depth + 1) ++ entry ++
      (entries.flatMap fun entry => ',' :: newLine (depth + 1) ++ entry) ++
      newLine depth ++ [closing]

/-- A key with its value. -/
def memberText (key : String) (value : List Char) : List Char :=
  quote key ++ ':' :: ' ' :: value

/-- An array of strings. -/
def stringsText (depth : Nat) (strings : List String) : List Char :=
  block '[' ']' depth (strings.map quote)

/-- How a direction is stored. -/
def directionName : Direction → String
  | .right => "right"
  | .left => "left"

/-- A description as JSON, character by character. -/
def printChars (d : Description) : List Char :=
  block '\x7b' '\x7d' 0 [
    memberText "nonterminals" (stringsText 1 d.nonterminals),
    memberText "terminals" (stringsText 1 d.terminals),
    memberText "productions" (block '\x7b' '\x7d' 1 (d.productions.map fun (left, alternatives) =>
      memberText left (stringsText 2 alternatives))),
    memberText "start_symbol" (quote d.start),
    memberText "type" ((d.level.map fun n => (toString n.toNat).toList).getD "null".toList),
    memberText "grammar_style" ((d.direction.map fun s => quote (directionName s)).getD "null".toList)]

/-- A description as JSON. -/
def print (d : Description) : String :=
  String.ofList (printChars d)

/-! ### Reading -/

/-- What a description is called where something else was found. -/
def descriptionName : String := "struct GrammarDescription"

/-- The parts of a description in the order in which they are stored. -/
inductive Field where
  /-- Names of the nonterminals. -/
  | nonterminals
  /-- Names of the terminals. -/
  | terminals
  /-- The rules. -/
  | productions
  /-- The name of the start symbol. -/
  | start
  /-- The number of the level. -/
  | level
  /-- The direction. -/
  | direction
deriving DecidableEq, Repr

namespace Field

/-- The key under which a part is stored. -/
def name : Field → String
  | nonterminals => "nonterminals"
  | terminals => "terminals"
  | productions => "productions"
  | start => "start_symbol"
  | level => "type"
  | direction => "grammar_style"

/-- All parts in order. -/
def all : List Field :=
  [nonterminals, terminals, productions, start, level, direction]

/-- The part that is stored under a key. -/
def ofName? (key : String) : Option Field :=
  all.find? fun field => field.name == key

end Field

/-- The parts read so far. -/
structure Draft where
  /-- Names of the nonterminals. -/
  nonterminals : Option (List String) := none
  /-- Names of the terminals. -/
  terminals : Option (List String) := none
  /-- The rules. -/
  productions : Option (List (String × List String)) := none
  /-- The name of the start symbol. -/
  start : Option String := none
  /-- The number of the level, if it was given at all. -/
  level : Option (Option UInt8) := none
  /-- The direction, if it was given at all. -/
  direction : Option (Option Direction) := none

/-- Was the part read before? -/
def Draft.has (draft : Draft) : Field → Bool
  | .nonterminals => draft.nonterminals.isSome
  | .terminals => draft.terminals.isSome
  | .productions => draft.productions.isSome
  | .start => draft.start.isSome
  | .level => draft.level.isSome
  | .direction => draft.direction.isSome

/-- The description made up of the parts read; a part that has to be there may be missing. -/
def Draft.finish (draft : Draft) : Except Field Description := do
  let some nonterminals := draft.nonterminals | throw .nonterminals
  let some terminals := draft.terminals | throw .terminals
  let some productions := draft.productions | throw .productions
  let some start := draft.start | throw .start
  return {
    nonterminals, terminals, productions, start
    level := draft.level.join
    direction := draft.direction.join }

/-- Reads the alternatives of a left side, and puts the rule before those read so far. -/
def rule (rules : List (String × List String)) (left : String) :
    Reader (List (String × List String)) := do
  colon
  let alternatives ← list string
  return (left, alternatives) :: rules

/-- Reads the rules: an object that keeps the order of its members. -/
def productions : Reader (List (String × List String)) := do
  let rules ← object "a map from left-hand sides to lists of alternatives" [] rule
  return rules.reverse

/-- The direction with a given name. -/
def directionOf (name : String) : Reader Direction :=
  if name = "right" then pure .right
  else if name = "left" then pure .left
  else throw (.mismatch (.variant name "`right` or `left`"))

/-- Reads a direction: its name, or an object with its name as the only key and null as the value. -/
def direction : Reader Direction := do
  match ← peek with
  | none => throw .endsEarly
  | some '"' => do
    take
    directionOf (← scan unquote)
  | some '\x7b' => do
    take
    let d ← directionOf (← stringAs "variant identifier")
    colon
    match ← peek with
    | some 'n' => letters "null".toList
    | _ => unexpected "unit"
    close '\x7d'
    return d
  | some _ => throw .malformed

/-- Reads a part of a description. -/
def part (draft : Draft) : Field → Reader Draft
  | .nonterminals => do return { draft with nonterminals := some (← list string) }
  | .terminals => do return { draft with terminals := some (← list string) }
  | .productions => do return { draft with productions := some (← productions) }
  | .start => do return { draft with start := some (← string) }
  | .level => do return { draft with level := some (← optional byte) }
  | .direction => do return { draft with direction := some (← optional direction) }

/-- Reads a member of an object that describes a grammar.  A key given twice is refused before its second
value is read. -/
def descriptionMember (draft : Draft) (key : String) : Reader Draft := do
  match Field.ofName? key with
  | none => do
    colon
    skipValue
    return draft
  | some field => do
    if draft.has field then
      throw (.mismatch (.duplicate field.name))
    colon
    part draft field

/-- Reads the parts of a description from an array, as many of them as there are. -/
def descriptionParts (draft : Draft) (first : Bool) : List Field → Reader Draft
  | [] => return draft
  | field :: fields => do
    if ← anotherElement first then
      descriptionParts (← part draft field) false fields
    else
      return draft

/-- The number of parts that an array gave before one that has to be there. -/
def Field.index (field : Field) : Nat :=
  Field.all.idxOf field

/-- Reads a description. -/
def description : Reader Description := do
  match ← peek with
  | some '[' => do
    take
    match (← descriptionParts {} true Field.all).finish with
    | .error field => throw (.mismatch (.length field.index (descriptionName ++ " with 6 elements")))
    | .ok d => do
      close ']'
      return d
  | some '\x7b' => do
    take
    match (← members descriptionMember ((← get).length + 1) true {}).finish with
    | .error field => throw (.mismatch (.missing field.name))
    | .ok d => do
      close '\x7d'
      return d
  | _ => unexpected descriptionName

/-- The description that a text holds. -/
def parse (s : String) : Except Fault Description :=
  run description s

end PhraseStructure.Json
