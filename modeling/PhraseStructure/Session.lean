import PhraseStructure.Enumeration
import PhraseStructure.Expansion
import PhraseStructure.Persistence
import PhraseStructure.Recognition

/-!
# Sessions

A session works on several grammars at once.  It keeps grammars by name, a current budget, a disk and a
journal, and answers requests one after another.  A request that is refused changes nothing.

## Main definitions

* `Source`: the ways to give a grammar.
* `Session`, `Request`, `Reply`, `Refusal`: what is kept, asked and answered.
* `Session.answer`: the answer to a request, and the session after it.
-/

namespace PhraseStructure

/-! ### Sources -/

/-- The ways to give a grammar. -/
inductive Source where
  /-- By its symbols, rules and start symbol. -/
  | rules (nonterminals terminals : String) (written : List (String × List String)) (start : Symbol)
  /-- By a description. -/
  | description (d : Description)
  /-- In the text format. -/
  | text (s : String)
  /-- In JSON. -/
  | json (s : String)

/-- Why a source gives no grammar. -/
inductive SourceFault where
  /-- Its parts do not make up a grammar. -/
  | grammar (fault : Fault)
  /-- Its text is not in the text format. -/
  | text (mistake : RuleText.Mistake)
  /-- Its JSON gives no grammar. -/
  | json (fault : LoadFault)
deriving DecidableEq, Repr

namespace Source

/-- Notes that a grammar was constructed. -/
def ofBuilt : Except Fault Grammar → Except SourceFault (Grammar × List Event)
  | .error fault => .error (.grammar fault)
  | .ok g => .ok (g, [g.constructed])

/-- The grammar given, with what there is to note. -/
def build : Source → Except SourceFault (Grammar × List Event)
  | .rules nonterminals terminals written start =>
    ofBuilt (Grammar.ofRules nonterminals terminals written start)
  | .description d => ofBuilt d.build
  | .text s =>
    match RuleText.parse s with
    | .error mistake => .error (.text mistake)
    | .ok d => ofBuilt d.build
  | .json s => (Grammar.ofJson s).mapError .json

/-- The description given, unchecked; bare rules have none. -/
def describe : Source → Except SourceFault (Option Description)
  | .rules _ _ _ _ => .ok none
  | .description d => .ok (some d)
  | .text s => ((RuleText.parse s).mapError .text).map some
  | .json s => ((Json.parse s).mapError fun fault => .json (.json fault)).map some

end Source

/-! ### Requests and replies -/

/-- What a session can be asked. -/
inductive Request where
  /-- Build a grammar and keep it under a name. -/
  | build (slot : String) (source : Source)
  /-- Summarise a grammar. -/
  | describe (slot : String)
  /-- Draw the production graph of a grammar. -/
  | tree (slot : String)
  /-- Decide whether a text belongs to the language of a grammar. -/
  | parse (slot input : String)
  /-- List words of the language of a grammar. -/
  | generate (slot : String) (n : Nat)
  /-- Compare two grammars. -/
  | equal (a b : String)
  /-- Limit the steps of all searches from now on. -/
  | limitSteps (n : Nat)
  /-- Put a file on the disk. -/
  | write (file content : String)
  /-- Make a directory. -/
  | makeDirectory (file : String)
  /-- Show a file. -/
  | read (file : String)
  /-- Save a grammar. -/
  | save (slot file : String)
  /-- Load a grammar and keep it under a name. -/
  | load (slot file : String)
  /-- Read a description. -/
  | readDescription (file : String)
  /-- Read a budget and use it from now on. -/
  | readBudget (file : String)
  /-- Make a note, or several numbered ones. -/
  | remark (message : String) (times : Option Nat)
  /-- Show the latest notes. -/
  | recall (n : Nat)

/-- What a session answers. -/
inductive Reply where
  /-- There is nothing to say. -/
  | done
  /-- A level. -/
  | level (l : Level)
  /-- Some text. -/
  | text (s : String)
  /-- The text of a file, if there is such a file. -/
  | content (s : Option String)
  /-- An outcome. -/
  | outcome (o : Outcome)
  /-- Words. -/
  | words (ws : List Word)
  /-- Yes or no. -/
  | truth (b : Bool)
  /-- A budget. -/
  | budget (b : Budget)
  /-- A grammar was saved. -/
  | saved
  /-- A description. -/
  | description (d : Description)
  /-- Notes, oldest first. -/
  | notes (messages : List String)

/-- Why a request is refused. -/
inductive Refusal where
  /-- No grammar is kept under the name. -/
  | emptySlot
  /-- The source gives no grammar. -/
  | source (fault : SourceFault)
  /-- A grammar could not be saved or loaded. -/
  | load (fault : LoadFault)
  /-- A description could not be read. -/
  | read (fault : ReadFault)
  /-- A budget could not be read. -/
  | budget (fault : BudgetFault)
  /-- A length does not fit into 64 bits. -/
  | overflow (o : Overflow)

/-- Grammars by name, the current budget, files and notes. -/
structure Session where
  /-- Grammars by name, most recent first. -/
  slots : List (String × Grammar) := []
  /-- The current budget. -/
  budget : Budget := {}
  /-- The files. -/
  disk : Disk := {}
  /-- The notes. -/
  journal : Journal := {}

namespace Session

/-- The grammar kept under a name. -/
def grammar (s : Session) (slot : String) : Except Refusal Grammar :=
  match s.slots.find? fun entry => entry.1 = slot with
  | some (_, g) => .ok g
  | none => .error .emptySlot

/-- Keeps a grammar under a name. -/
def keep (s : Session) (slot : String) (g : Grammar) : Session :=
  { s with slots := (slot, g) :: s.slots }

/-- Takes notes. -/
def note (s : Session) (stamp : Stamp) (events : List Event) : Session :=
  { s with journal := s.journal.recordAll stamp events }

/-- The events of a remark: the message once, or numbered from one on. -/
def remarks (message : String) : Option Nat → List Event
  | none => [.remark message]
  | some times => (List.range times).map fun i => .remark s!"{message} {i + 1}"

/-- Answers a request, and gives the session after it. -/
def attempt (stamp : Stamp) (s : Session) : Request → Except Refusal (Reply × Session)
  | .build slot source => do
    let (g, events) ← source.build.mapError .source
    return (.level g.level, (s.keep slot g).note stamp events)
  | .describe slot => do return (.text (← s.grammar slot).describe, s)
  | .tree slot => do return (.text (← s.grammar slot).productionTree, s)
  | .parse slot input => do
    let answer ← ((← s.grammar slot).answer s.budget input).mapError .overflow
    return (.outcome answer.outcome, s.note stamp answer.events)
  | .generate slot n => do
    let (words, events) := (← s.grammar slot).enumerate s.budget n
    return (.words words, s.note stamp events)
  | .equal a b => do
    let g ← s.grammar a
    let h ← s.grammar b
    return (.truth (decide (g = h)), s)
  | .limitSteps n =>
    let budget := s.budget.limitSteps n
    return (.budget budget, { s with budget })
  | .write file content => return (.done, { s with disk := s.disk.put file (.file content) })
  | .makeDirectory file => return (.done, { s with disk := s.disk.put file .directory })
  | .read file => return (.content (s.disk.read file).toOption, s)
  | .save slot file => do
    let (result, disk) := (Disk.store.save (← s.grammar slot) file).run s.disk
    let events ← result.mapError .load
    return (.saved, { s with disk }.note stamp events)
  | .load slot file => do
    let (g, events) ← ((Disk.store.load file).run s.disk).1.mapError .load
    return (.level g.level, (s.keep slot g).note stamp events)
  | .readDescription file => do
    return (.description (← ((Disk.store.readDescription file).run s.disk).1.mapError .read), s)
  | .readBudget file => do
    let budget ← ((Disk.store.readBudget file).run s.disk).1.mapError .budget
    return (.budget budget, { s with budget })
  | .remark message times => return (.done, s.note stamp (remarks message times))
  | .recall n => return (.notes (s.journal.recent n), s)

/-- The answer to a request and the session after it; a refusal leaves the session as it was. -/
def answer (stamp : Stamp) (s : Session) (request : Request) : Except Refusal Reply × Session :=
  match s.attempt stamp request with
  | .ok (reply, s) => (.ok reply, s)
  | .error refusal => (.error refusal, s)

end Session

end PhraseStructure
