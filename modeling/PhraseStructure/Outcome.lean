import PhraseStructure.SyntaxTree
import PhraseStructure.Text.Blank

/-!
# Outcomes

An `Outcome` answers whether a word belongs to a language, and says why.  The `Trace` of an answer is
either a derivation, told step by step, or the findings of a chart: the items that were completed at the
end of the input and, for an accepted word, a derivation and a syntax tree.

## Main definitions

* `Trace`, `Outcome`: the answer.
* `Outcome.render`: the answer for the reader.
-/

namespace PhraseStructure

/-- Why an answer is what it is. -/
inductive Trace where
  /-- A derivation, step by step. -/
  | linear (steps : List String)
  /-- What a chart holds at the end of the input. -/
  | chart (completed derivation : List String) (tree : Option SyntaxTree)
deriving Repr

/-- Whether a word belongs to a language, and why. -/
structure Outcome where
  /-- Does the word belong to the language? -/
  accepted : Bool
  /-- What shows it. -/
  trace : Option Trace
deriving Repr

namespace Outcome

/-- The answer without an explanation that a word was not found to belong to the language. -/
def rejected : Outcome :=
  ⟨false, none⟩

/-- The steps with their numbers, line by line. -/
def numbered (steps : List String) : String :=
  "\n".intercalate (steps.mapIdx fun i step => s!"{i + 1}. {step}")

/-- A titled section whose text is moved to the right. -/
def titled (title text : String) : String :=
  title ++ "\n" ++ Text.indent "  " text

/-- The sections that tell what a chart holds. -/
def chartSections (completed derivation : List String) (tree : Option SyntaxTree) : List String :=
  [if completed = [] then "Completed states at end of input: none"
    else titled "Completed states at end of input:" ("\n".intercalate completed)] ++
  (if derivation = [] then [] else [titled "Derivation:" (numbered derivation)]) ++
  (tree.map fun t => titled "Parse tree:" ("\n".intercalate (t.lines "" true))).toList

/-- The explanation of an answer. -/
def explanation : Option Trace → String
  | none => "No derivation available"
  | some (.linear steps) => titled "Step-by-step derivation:" (numbered steps)
  | some (.chart completed derivation tree) =>
    "\n".intercalate (chartSections completed derivation tree)

/-- The answer and its explanation. -/
def render (o : Outcome) : String :=
  (if o.accepted then "ACCEPTED" else "REJECTED") ++ "\n" ++ explanation o.trace

end Outcome

end PhraseStructure
