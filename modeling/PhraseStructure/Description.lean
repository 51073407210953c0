import PhraseStructure.Grammar

/-!
# Descriptions

A `Description` is a grammar as somebody wrote it down, before anything is checked: names of symbols that
may have any length, rules in any order, and perhaps a level and a direction, which are only for
information.  A description can be built into a grammar, which stops at the first fault, or reviewed, which
finds all of them.

## Main definitions

* `Description`: the type.
* `Description.build`: the grammar described, or the first fault.
* `Description.review`: all faults.
* `Grammar.toDescription`: a grammar written down.
-/

namespace PhraseStructure

/-- A grammar as it is written down. -/
structure Description where
  /-- Names of the nonterminals. -/
  nonterminals : List String
  /-- Names of the terminals. -/
  terminals : List String
  /-- Left sides with their alternatives, in order. -/
  productions : List (String × List String)
  /-- The name of the start symbol. -/
  start : String
  /-- A byte that should be the number of the level, for information. -/
  level : Option UInt8 := none
  /-- The direction of a regular grammar, for information. -/
  direction : Option Direction := none
deriving DecidableEq, Repr

/-- The symbol that a name spells, if the name is a single character. -/
def symbolOf? (name : String) : Option Symbol :=
  match name.toList with
  | [c] => some c
  | _ => none

/-- The symbol that a name spells, or the fault that it spells none. -/
def symbolOf (name : String) : Except Fault Symbol :=
  match symbolOf? name with
  | some c => .ok c
  | none => .error (.notOneSymbol name)

namespace Description

/-- The grammar described.  Names of nonterminals are read first, then those of terminals, the start symbol
and the productions; only then are they checked against each other. -/
def build (d : Description) : Except Fault Grammar := do
  let nonterminals ← d.nonterminals.mapM symbolOf
  let terminals ← d.terminals.mapM symbolOf
  let some start := symbolOf? d.start | throw (.start d.start)
  let productions ← d.productions.mapM fun (left, alternatives) => Production.ofText left alternatives
  Grammar.assemble nonterminals terminals productions start

/-- The words of a description, rule by rule: the left side and then the alternatives. -/
def words (d : Description) : List Word :=
  d.productions.flatMap fun (left, alternatives) => (left :: alternatives).map Word.read

/-- The names that spell no symbol. -/
def unspelled (names : List String) : List Fault :=
  (names.filter fun name => (symbolOf? name).isNone).map Fault.notOneSymbol

/-- The vocabulary of the names that spell a symbol. -/
def vocabulary (d : Description) : Except VocabularyFault Vocabulary :=
  Vocabulary.make (d.nonterminals.filterMap symbolOf?) (d.terminals.filterMap symbolOf?)

/-- Is the start symbol one declared nonterminal? -/
def startDeclared (d : Description) (v : Vocabulary) : Bool :=
  (symbolOf? d.start).any v.isNonterminal

/-- The rules that make no production. -/
def brokenRules (d : Description) : List Fault :=
  d.productions.filterMap fun (left, alternatives) =>
    match Production.ofText left alternatives with
    | .error fault => some fault
    | .ok _ => none

/-- The undeclared symbols, each with the first word that has it. -/
def undeclared (d : Description) (v : Vocabulary) : List Fault :=
  let uses := d.words.flatMap fun w => (w.filter fun c => !v.isDeclared c).map fun c => (c, w)
  (uses.eraseDupsBy fun a b => a.1 == b.1).map fun (c, w) => .undeclared c w

/-- All faults of a description. -/
def review (d : Description) : List Fault :=
  unspelled d.nonterminals ++ unspelled d.terminals ++
    match d.vocabulary with
    | .error fault => .vocabulary fault :: .start d.start :: d.brokenRules
    | .ok v =>
      (if d.startDeclared v then [] else [.start d.start]) ++ d.brokenRules ++ d.undeclared v

/-- The faults of a description as one text, `none` if there are none. -/
def problems (d : Description) : Option String :=
  match d.review with
  | [] => none
  | faults => some ("\n".intercalate (faults.map Fault.message))

end Description

/-- A grammar written down, with its level and direction. -/
def Grammar.toDescription (g : Grammar) : Description where
  nonterminals := g.vocabulary.nonterminals.toList.map String.singleton
  terminals := g.vocabulary.terminals.toList.map String.singleton
  productions := g.productions.map fun p => (p.left.plain, p.alternatives.map Word.shown)
  start := String.singleton g.start
  level := some g.level.number.toUInt8
  direction := g.direction

end PhraseStructure
