import PhraseStructure.Grammar

/-!
# The production graph

Which nonterminals can be reached from the start symbol, and through which alternatives, is drawn as a tree
of expansions.  Expanding a nonterminal lists its alternatives and expands the nonterminals of each.  On the
way down from the start symbol no nonterminal is expanded twice, so every expansion is finite; the same
nonterminal may well be expanded on several ways.

## Main definitions

* `ExpansionLine`: a line of the drawing.
* `Grammar.expansion`: the lines below a nonterminal, given the nonterminals that may still be expanded.
* `Grammar.treeLines`, `Grammar.productionTree`: the drawing from the start symbol, as lines and as text.
-/

namespace PhraseStructure

variable {α : Type}

/-- What a line of the drawing says. -/
inductive ExpansionEntry (α : Type) where
  /-- A nonterminal is expanded below. -/
  | expanded (symbol : Symbol)
  /-- A nonterminal has nothing to expand to. -/
  | barren (symbol : Symbol)
  /-- A nonterminal is being expanded above. -/
  | revisited (symbol : Symbol)
  /-- An alternative, and whether it is the last one of its nonterminal. -/
  | alternative (right : α) (last : Bool)
  /-- The line that joins an alternative to what is expanded below it. -/
  | join
deriving DecidableEq, Repr

/-- A line of the drawing behind its margin. -/
structure ExpansionLine (α : Type) where
  /-- The text before the entry. -/
  margin : String
  /-- What the line says. -/
  entry : ExpansionEntry α
deriving DecidableEq, Repr

/-- The text of an entry. -/
def ExpansionEntry.text [Spelling α] : ExpansionEntry α → String
  | expanded c => "├─ " ++ c.toString
  | barren c => "└─ " ++ c.toString ++ " (no productions)"
  | revisited c => "├─ " ++ c.toString ++ " (already visited)"
  | alternative right last =>
    "│  " ++ (if last then "└─ " else "├─ ") ++ Spelling.shown right ++
      (if Spelling.isMark right then " (empty)" else "")
  | join => "│"

/-- The text of a line. -/
def ExpansionLine.text [Spelling α] (line : ExpansionLine α) : String :=
  line.margin ++ line.entry.text

/-- The elements of a list, each with a flag that is set for the last one. -/
def markLast : List α → List (α × Bool)
  | [] => []
  | [x] => [(x, true)]
  | x :: y :: zs => (x, false) :: markLast (y :: zs)

namespace Grammar

variable [Spelling α]

/-- The nonterminals that occur in an alternative, each once, in order of first occurrence. -/
def nonterminalsOf (g : Grammar α) (r : α) : List Symbol :=
  ((Spelling.word r).filter g.vocabulary.isNonterminal).eraseDups

/-- The margin of what is expanded below an alternative. -/
def marginBelow (margin : String) (last : Bool) : String :=
  if last then margin ++ "      " else margin ++ "│  │  "

/-- The lines of an expansion.  `fresh` holds the nonterminals that are not being expanded above. -/
def expansion (g : Grammar α) (fresh : List Symbol) (margin : String) (c : Symbol) :
    List (ExpansionLine α) :=
  if _h : c ∈ fresh then
    if g.alternatives c = [] then
      [⟨margin, .barren c⟩]
    else
      ⟨margin, .expanded c⟩ :: (markLast (g.alternatives c)).flatMap fun (right, last) =>
        ⟨margin, .alternative right last⟩ :: (g.nonterminalsOf right).flatMap fun d =>
          ⟨marginBelow margin last, .join⟩ :: g.expansion (fresh.erase c) (marginBelow margin last) d
  else
    [⟨margin, .revisited c⟩]
termination_by fresh.length
decreasing_by
  have := List.length_pos_of_mem _h
  rw [List.length_erase_of_mem _h]
  omega

/-- The lines of the drawing of everything that can be reached from the start symbol. -/
def treeLines (g : Grammar α) : List (ExpansionLine α) :=
  g.expansion g.vocabulary.nonterminals.toList "" g.start

/-- The drawing as text. -/
def productionTree (g : Grammar α) : String :=
  "\n".intercalate (g.treeLines.map ExpansionLine.text)

end Grammar

end PhraseStructure
