import PhraseStructure.Production

/-!
# The hierarchy of grammars

Rules fall into four levels by the shape of their productions.

* level 3, *regular*: every left side is one nonterminal, and every alternative is the mark of the empty
  word, one terminal, or a terminal and a nonterminal, in one and the same direction throughout;
* level 2, *context-free*: every left side is one nonterminal;
* level 1, *context-sensitive*: no alternative is shorter than its left side, except that the start
  symbol may be erased by the mark as long as it never occurs in an alternative;
* level 0, *unrestricted*: everything else.

Rules belong to the highest level whose conditions they meet.  Regular rules also have a direction, the
side on which their nonterminals stand.

The exceptions of levels 3 and 1 are made for the mark alone.  An alternative that is spelled with no
symbols keeps rules out of both levels, wherever it stands.

## Main definitions

* `Level`, `Direction`: the names of the four levels and of the two directions.
* `Production.isLinear`, `Production.isContextFree`, `Production.isMonotone`: the conditions on one
  production.
* `levelOf`, `directionOf`: the level of some productions and the direction of regular ones.
-/

namespace PhraseStructure

/-- A level of the hierarchy. -/
inductive Level where
  /-- No condition on rules. -/
  | unrestricted
  /-- Rules that never shorten a form. -/
  | contextSensitive
  /-- Rules that replace single nonterminals. -/
  | contextFree
  /-- Rules that read one terminal at a time. -/
  | regular
deriving DecidableEq, Repr

namespace Level

/-- The number of a level. -/
def number : Level → Nat
  | unrestricted => 0
  | contextSensitive => 1
  | contextFree => 2
  | regular => 3

/-- The name of a level. -/
def name : Level → String
  | unrestricted => "Unrestricted"
  | contextSensitive => "Context-Sensitive"
  | contextFree => "Context-Free"
  | regular => "Regular"

/-- Number and name of a level as they are shown. -/
def text (level : Level) : String :=
  "Type " ++ toString level.number ++ " (" ++ level.name ++ ")"

end Level

/-- The side of a regular alternative on which its nonterminal stands. -/
inductive Direction where
  /-- A terminal and then a nonterminal. -/
  | right
  /-- A nonterminal and then a terminal. -/
  | left
deriving DecidableEq, Repr

/-- The name of a direction. -/
def Direction.text : Direction → String
  | right => "right-linear"
  | left => "left-linear"

section Conditions

variable {α : Type}

/-- Is the left side one nonterminal? -/
def Production.isContextFree (v : Vocabulary) (p : Production α) : Bool :=
  p.singleLeft.any v.isNonterminal

/-- Do the productions meet the conditions of level 2? -/
def isContextFree (v : Vocabulary) (productions : List (Production α)) : Bool :=
  productions.all (·.isContextFree v)

/-- All alternatives of some productions, in order. -/
def allAlternatives (productions : List (Production α)) : List α :=
  productions.flatMap (·.alternatives)

variable [Spelling α]

/-- Is the alternative spelled with a terminal and a nonterminal in this direction? -/
def Vocabulary.isPair (v : Vocabulary) (d : Direction) (r : α) : Bool :=
  match d, Spelling.word r with
  | .right, [a, b] => v.isTerminal a && v.isNonterminal b
  | .left, [a, b] => v.isNonterminal a && v.isTerminal b
  | _, _ => false

/-- Is the alternative the mark, one terminal, or a pair in this direction? -/
def Vocabulary.isLinear (v : Vocabulary) (d : Direction) (r : α) : Bool :=
  -- The mark fits wherever it stands; being spelled with no symbols is not enough.
  Spelling.isMark r ||
    match Spelling.word r with
    | [a] => v.isTerminal a
    | _ => v.isPair d r

/-- Does the production fit a regular grammar in this direction? -/
def Production.isLinear (v : Vocabulary) (d : Direction) (p : Production α) : Bool :=
  p.isContextFree v && p.alternatives.all (v.isLinear d)

/-- Is no alternative shorter than the left side, the mark in place of a lone start symbol apart? -/
def Production.isMonotone (start : Symbol) (p : Production α) : Bool :=
  p.alternatives.all fun r =>
    if Spelling.isMark r then p.left = [start] else p.left.length ≤ (Spelling.word r).length

/-- The direction in which pairs occur among the alternatives.  Without pairs it is `right`; pairs in
both directions leave none. -/
def directionOf (v : Vocabulary) (productions : List (Production α)) : Option Direction :=
  match (allAlternatives productions).any (v.isPair .right),
      (allAlternatives productions).any (v.isPair .left) with
  | true, true => none
  | false, true => some .left
  | _, false => some .right

/-- If the start symbol may be erased, does it occur in no alternative? -/
def startIsolated (start : Symbol) (productions : List (Production α)) : Bool :=
  !(productions.any fun p => p.left = [start] && p.erases) ||
    (allAlternatives productions).all fun r => !(Spelling.word r).contains start

/-- Do the productions meet the conditions of level 3? -/
def isRegular (v : Vocabulary) (productions : List (Production α)) : Bool :=
  (productions.all (·.isLinear v .right) || productions.all (·.isLinear v .left)) &&
    (directionOf v productions).isSome

/-- Do the productions meet the conditions of level 1? -/
def isContextSensitive (start : Symbol) (productions : List (Production α)) : Bool :=
  productions.all (·.isMonotone start) && startIsolated start productions

/-- The highest level whose conditions the productions meet. -/
def levelOf (v : Vocabulary) (productions : List (Production α)) (start : Symbol) : Level :=
  if isRegular v productions then .regular
  else if isContextFree v productions then .contextFree
  else if isContextSensitive start productions then .contextSensitive
  else .unrestricted

end Conditions

end PhraseStructure
