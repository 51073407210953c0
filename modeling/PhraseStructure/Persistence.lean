import PhraseStructure.Format.Json.Grammar
import PhraseStructure.Format.RuleText
import PhraseStructure.Format.Toml.Document
import PhraseStructure.Journal
import PhraseStructure.Store

/-!
# Grammars and budgets in files

Grammars are saved as JSON and loaded from it; a stored level that is not the level of the grammar is noted
and then ignored.  Descriptions may also be written in the text format: the extension of a file tells which of
the two it holds.

## Main definitions

* `Grammar.toJson`, `Grammar.ofJson`: a grammar as JSON.
* `Store.save`, `Store.load`: grammars in files.
* `Store.readDescription`: a description from a file of either format.
* `Store.readBudget`: a budget from a file.
-/

namespace PhraseStructure

/-- Why a stored grammar cannot be had. -/
inductive LoadFault where
  /-- The file cannot be read or written. -/
  | access (fault : AccessFault)
  /-- The file does not hold a description in JSON. -/
  | json (fault : Json.Fault)
  /-- The description is not that of a grammar. -/
  | grammar (fault : Fault)
deriving DecidableEq, Repr

/-- What is wrong with a JSON text, in a few words. -/
def Json.Fault.message : Json.Fault → String
  | .mismatch m => m.message
  | .malformed => "malformed text"
  | .endsEarly => "unexpected end of text"

/-- The wording of a load fault. -/
def LoadFault.message : LoadFault → String
  | access fault => "cannot access grammar file: " ++ fault.text
  | json fault => "malformed grammar JSON: " ++ fault.message
  | grammar fault => "stored grammar is invalid: " ++ fault.message

namespace Grammar

/-- A grammar as JSON. -/
def toJson (g : Grammar) : String :=
  Json.print g.toDescription

/-- A note on the level stored with a grammar, if the grammar has another one. -/
def levelNote (g : Grammar) (stored : Option UInt8) : List Event :=
  match stored with
  | some n => if n.toNat = g.level.number then [] else [.levelDisagrees n.toNat g.level]
  | none => []

/-- The grammar that a JSON text holds, with what there is to note. -/
def ofJson (content : String) : Except LoadFault (Grammar × List Event) :=
  match Json.parse content with
  | .error fault => .error (.json fault)
  | .ok d =>
    match d.build with
    | .error fault => .error (.grammar fault)
    | .ok g => .ok (g, g.constructed :: g.levelNote d.level)

end Grammar

/-- Why there is no description in a file. -/
inductive ReadFault where
  /-- The file cannot be read. -/
  | access (path : String) (fault : AccessFault)
  /-- The file is not in the text format. -/
  | text (path : String) (mistake : RuleText.Mistake)
  /-- The file does not hold a description in JSON. -/
  | json (path : String) (fault : Json.Fault)
deriving DecidableEq, Repr

/-- What was being done when reading failed. -/
def ReadFault.context : ReadFault → String
  | access path _ => "failed to read " ++ path
  | text path _ => "failed to parse " ++ path
  | json path _ => "failed to parse " ++ path

/-- The wording of a read fault. -/
def ReadFault.message (fault : ReadFault) : String :=
  fault.context ++ ": " ++
    match fault with
    | access _ fault => fault.text
    | text _ mistake => mistake.message
    | json _ fault => fault.message

/-- Why there is no budget in a file. -/
inductive BudgetFault where
  /-- The file cannot be read. -/
  | access (fault : AccessFault)
  /-- The file does not hold a budget. -/
  | malformed
deriving DecidableEq, Repr

/-- Does a file hold JSON, by its name? -/
def isJsonPath (path : String) : Bool :=
  Path.hasExtension path "json"

/-- The description in the text of a file. -/
def descriptionIn (path content : String) : Except ReadFault Description :=
  if isJsonPath path then
    (Json.parse content).mapError (.json path)
  else
    (RuleText.parse content).mapError (.text path)

namespace Store

variable {m : Type → Type} [Monad m]

/-- Saves a grammar in a file, with what there is to note. -/
def save (store : Store m) (g : Grammar) (path : String) : m (Except LoadFault (List Event)) := do
  match ← store.write path g.toJson with
  | .error fault => return .error (.access fault)
  | .ok () => return .ok [.saved path]

/-- Loads a grammar from a file, with what there is to note. -/
def load (store : Store m) (path : String) : m (Except LoadFault (Grammar × List Event)) := do
  match ← store.read path with
  | .error fault => return .error (.access fault)
  | .ok content =>
    return (Grammar.ofJson content).map fun (g, events) => (g, events ++ [.loaded path])

/-- Reads a description from a file without checking it. -/
def readDescription (store : Store m) (path : String) : m (Except ReadFault Description) := do
  match ← store.read path with
  | .error fault => return .error (.access path fault)
  | .ok content => return descriptionIn path content

/-- Reads a budget from a file. -/
def readBudget (store : Store m) (path : String) : m (Except BudgetFault Budget) := do
  match ← store.read path with
  | .error fault => return .error (.access fault)
  | .ok content =>
    match Budget.ofToml? content with
    | none => return .error .malformed
    | some b => return .ok b

end Store

end PhraseStructure
