/-!
# Search budgets

Every search of this library has a ceiling on the work it may do, and reaching the ceiling counts as a
negative answer.  A `Budget` collects the ceilings.  Besides counts of steps it says how long the
sentential forms of a search may grow, relative to the word that is looked for.

Lengths are kept in words of 64 bits, so the longest admissible length may fail to exist: then
`Budget.lengthCap` says which operation left the range.

## Main definitions

* `Budget`: the ceilings and their defaults.
* `Budget.limitSteps`: the same limit for all steps.
* `Budget.lengthCap`: how long forms may grow on the way to a target.
-/

namespace PhraseStructure

/-- Ceilings on the work of the searches. -/
structure Budget where
  /-- Nodes that the walk of a regular grammar visits. -/
  walkSteps : Nat := 10000
  /-- Items that a chart processes. -/
  chartSteps : Nat := 1000000
  /-- Forms that the search over sentential forms visits. -/
  searchSteps : Nat := 5000
  /-- Symbols of a form per symbol of the target. -/
  lengthFactor : Nat := 3
  /-- Symbols of a form beyond those. -/
  lengthSlack : Nat := 50
  /-- The least admissible length of forms. -/
  lengthFloor : Nat := 100
  /-- Forms that the enumeration of words visits. -/
  enumerationSteps : Nat := 10000
  /-- The longest form that the enumeration of words keeps. -/
  enumerationLength : Nat := 20
  /-- Completed items that a chart reports. -/
  completedShown : Nat := 30
deriving DecidableEq, Repr

/-- An arithmetic operation whose result needs more than 64 bits. -/
inductive Overflow where
  /-- A product is too large. -/
  | multiply
  /-- A sum is too large. -/
  | add
deriving DecidableEq, Repr

/-- The wording of an overflow. -/
def Overflow.message : Overflow → String
  | multiply => "attempt to multiply with overflow"
  | add => "attempt to add with overflow"

/-- The least number that does not fit into 64 bits. -/
def wordLimit : Nat := 18446744073709551616

namespace Budget

/-- The same budget with one limit on the steps of every search. -/
def limitSteps (b : Budget) (steps : Nat) : Budget :=
  { b with walkSteps := steps, chartSteps := steps, searchSteps := steps, enumerationSteps := steps }

/-- The longest form that the search over sentential forms keeps for a target of `n` symbols. -/
def lengthCap (b : Budget) (n : Nat) : Except Overflow Nat :=
  if wordLimit ≤ b.lengthFactor * n then
    .error .multiply
  else if wordLimit ≤ b.lengthFactor * n + b.lengthSlack then
    .error .add
  else
    .ok (max (b.lengthFactor * n + b.lengthSlack) b.lengthFloor)

end Budget

end PhraseStructure
