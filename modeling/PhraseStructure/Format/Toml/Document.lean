import PhraseStructure.Budget
import PhraseStructure.Format.Toml.Value

/-!
# TOML documents and budgets

A document is a sequence of lines: entries, and headers of tables.  The entries before the first header make
up the top of the document, where a budget keeps its ceilings.  All other tables are only checked.

A header may not define a table again, but it may define one that so far only had tables below it.  A header
in double brackets adds an element to an array of tables, and what follows belongs to the last element.

## Main definitions

* `Toml.Outline`: the tables defined by headers.
* `Toml.document`: the entries at the top of a document.
* `Budget.ofToml?`: a budget, with defaults for what is not given.
-/

namespace PhraseStructure.Toml

/-! ### The tables of a document -/

/-- How a table came about. -/
inductive TableKind where
  /-- Only tables below it were defined. -/
  | implied
  /-- It has a header of its own. -/
  | defined
  /-- It is the last element of an array of tables. -/
  | element
deriving DecidableEq, Repr

/-- The tables defined so far, by their paths. -/
abbrev Outline := List (List (List Char) × TableKind)

namespace Outline

/-- How the table at a path came about, if there is one. -/
def kind? (outline : Outline) (path : List (List Char)) : Option TableKind :=
  (outline.find? fun entry => entry.1 = path).map (·.2)

/-- The outline in which the tables on the way to a path are there. -/
def imply (outline : Outline) (path : List (List Char)) : Outline :=
  (List.range path.length).foldl (fun outline n =>
    if (outline.kind? (path.take n)).isSome then outline else (path.take n, .implied) :: outline) outline

/-- The outline after a header.  A new element of an array forgets the tables of the element before. -/
def define (outline : Outline) (path : List (List Char)) (array : Bool) : Option Outline :=
  let outline := outline.imply path
  match array, outline.kind? path with
  | false, none => some ((path, .defined) :: outline)
  | false, some .implied => some ((path, .defined) :: outline.filter fun entry => entry.1 ≠ path)
  | false, some _ => none
  | true, none => some ((path, .element) :: outline)
  | true, some .element =>
    some ((path, .element) :: outline.filter fun entry => !path.isPrefixOf entry.1)
  | true, some _ => none

end Outline

/-! ### Lines -/

/-- A line of a document. -/
inductive Line where
  /-- A header with the path of a table. -/
  | header (path : List (List Char)) (array : Bool)
  /-- A value under a dotted key. -/
  | entry (key : List Char) (more : List (List Char)) (value : Value)

/-- Takes what may stand behind the text of a line, and its end. -/
def restOfLine : Reader Unit := do
  skipBlank
  if ← comment then pure () else lineEnd

/-- Takes a header or an entry. -/
def line : Reader Line := do
  if ← eat '[' then do
    let array ← eat '['
    skipBlank
    let (k, ks) ← dottedKey
    expect ']'
    if array then expect ']'
    restOfLine
    return .header (k :: ks) array
  else do
    let (k, ks) ← dottedKey
    expect '='
    skipBlank
    let v ← value ((← get).length + 1)
    restOfLine
    return .entry k ks v

/-- Takes all lines; the count bounds their number. -/
def lines : Nat → Reader (List Line)
  | 0 => failure
  | count + 1 => do
    skipLines ((← get).length + 1)
    if (← peek).isNone then
      return []
    else do
      let l ← line
      return l :: (← lines count)

/-- What the lines so far amount to: the entries at the top, those of the current table, and the outline. -/
structure Progress where
  /-- The entries at the top. -/
  top : Entries := []
  /-- The entries of the table under the last header, if there was a header. -/
  current : Option Entries := none
  /-- The tables defined so far. -/
  outline : Outline := []

/-- Adds a line. -/
def Progress.add (progress : Progress) : Line → Option Progress
  | .header path array => do
    let outline ← progress.outline.define path array
    return { progress with current := some [], outline }
  | .entry k ks v =>
    match progress.current with
    | none => do
      let top ← addEntry v k ks progress.top
      return { progress with top }
    | some entries => do
      let entries ← addEntry v k ks entries
      return { progress with current := some entries }

/-- A document: the entries at its top, and the names of the tables that have headers. -/
structure Document where
  /-- The entries at the top. -/
  entries : Entries
  /-- The first parts of the paths of all tables. -/
  tables : List (List Char)

/-- The document that a text holds. -/
def document (s : String) : Option Document := do
  let tokens ← tokenize s
  let (ls, _) ← (lines (tokens.length + 1)).run tokens
  let progress ← ls.foldlM Progress.add {}
  return {
    entries := progress.top
    tables := progress.outline.filterMap fun (path, _) => path.head? }

end PhraseStructure.Toml

/-! ### Budgets -/

namespace PhraseStructure.Budget

/-- The keys under which the ceilings of a budget are stored, each with the way to set its ceiling. -/
def settings : List (String × (Budget → Nat → Budget)) := [
  ("regular_steps", fun b n => { b with walkSteps := n }),
  ("earley_steps", fun b n => { b with chartSteps := n }),
  ("rewrite_steps", fun b n => { b with searchSteps := n }),
  ("rewrite_length_factor", fun b n => { b with lengthFactor := n }),
  ("rewrite_length_slack", fun b n => { b with lengthSlack := n }),
  ("rewrite_length_floor", fun b n => { b with lengthFloor := n }),
  ("enumeration_iterations", fun b n => { b with enumerationSteps := n }),
  ("enumeration_max_length", fun b n => { b with enumerationLength := n }),
  ("completed_state_cap", fun b n => { b with completedShown := n })]

/-- The budget with one ceiling taken from a document, if the document gives it properly: at most once, and
as an integer that is not negative. -/
def readSetting (doc : Toml.Document) (b : Budget) (setting : String × (Budget → Nat → Budget)) :
    Option Budget :=
  let key := setting.1.toList
  if doc.tables.contains key then none
  else
    match doc.entries.filter fun entry => entry.1 = key with
    | [] => some b
    | [(_, .integer n)] => if 0 ≤ n then some (setting.2 b n.toNat) else none
    | _ => none

/-- The budget that a text holds, with defaults for the ceilings that it does not give. -/
def ofToml? (s : String) : Option Budget := do
  settings.foldlM (readSetting (← Toml.document s)) {}

end PhraseStructure.Budget
