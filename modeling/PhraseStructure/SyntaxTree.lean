import PhraseStructure.Symbol

/-!
# Syntax trees

A syntax tree shows how a word comes about: a *leaf* is one symbol of the word with its position, and a
*node* is a nonterminal together with the span of the word that it covers and the trees of the symbols
that replaced it.  A node without children stands for a nonterminal that was erased.

## Main definitions

* `SyntaxTree`: the type.
* `SyntaxTree.yield`: the word at the leaves.
* `SyntaxTree.uses`: the replacements that the tree records, from the root down and left to right.
* `SyntaxTree.lines`: a drawing of the tree.
-/

namespace PhraseStructure

/-- How a word comes about from a nonterminal. -/
inductive SyntaxTree where
  /-- One symbol of the word. -/
  | leaf (symbol : Symbol) (position : Nat)
  /-- A nonterminal, where the part of the word that it covers starts and stops, and what replaced it. -/
  | node (symbol : Symbol) (start stop : Nat) (children : List SyntaxTree)
deriving Repr

/-- A replacement recorded by a tree: a symbol, what replaced it, and the span covered. -/
structure Use where
  /-- The symbol that was replaced. -/
  symbol : Symbol
  /-- What took its place. -/
  right : Word
  /-- Where the part of the word starts that it covers. -/
  start : Nat
  /-- Where that part stops. -/
  stop : Nat
deriving DecidableEq, Repr

/-- A replacement as one line of text. -/
def Use.text (u : Use) : String :=
  u.symbol.toString ++ " → " ++ u.right.shown ++ s!"  [{u.start}..{u.stop}]"

namespace SyntaxTree

/-- The symbol at the root. -/
def symbol : SyntaxTree → Symbol
  | leaf c _ => c
  | node c _ _ _ => c

mutual

/-- The word at the leaves, left to right. -/
def yield : SyntaxTree → Word
  | leaf c _ => [c]
  | node _ _ _ children => yieldAll children

/-- The word at the leaves of several trees, left to right. -/
def yieldAll : List SyntaxTree → Word
  | [] => []
  | tree :: trees => yield tree ++ yieldAll trees

end

mutual

/-- The replacements of a tree, from the root down and left to right. -/
def uses : SyntaxTree → List Use
  | leaf _ _ => []
  | node c start stop children =>
    ⟨c, children.map symbol, start, stop⟩ :: usesAll children

/-- The replacements of several trees, left to right. -/
def usesAll : List SyntaxTree → List Use
  | [] => []
  | tree :: trees => uses tree ++ usesAll trees

end

/-- What is written at the root of a tree in its drawing. -/
def label : SyntaxTree → String
  | leaf c _ => c.toString
  | node c _ _ [] => c.toString ++ " → ε"
  | node c _ _ (_ :: _) => c.toString

mutual

/-- The drawing of a tree, line by line, behind a margin.  The last tree of a row ends the line that
joins the row. -/
def lines (margin : String) (last : Bool) : SyntaxTree → List String
  | leaf c position => [margin ++ (if last then "└─ " else "├─ ") ++ label (leaf c position)]
  | node c start stop children =>
    (margin ++ (if last then "└─ " else "├─ ") ++ label (node c start stop children)) ::
      linesAll (margin ++ (if last then "   " else "│  ")) children

/-- The drawing of a row of trees. -/
def linesAll (margin : String) : List SyntaxTree → List String
  | [] => []
  | tree :: trees => lines margin trees.isEmpty tree ++ linesAll margin trees

end

end SyntaxTree

end PhraseStructure
