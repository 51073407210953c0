import PhraseStructure.Recognition.Chart
import PhraseStructure.SyntaxTree
import Std.Data.HashMap

/-!
# Rebuilding a syntax tree from a chart

A finished chart tells which nonterminals cover which spans of the input, but not by which trees.  One tree
is rebuilt from the top down: for a nonterminal and a span the completed rules are tried in the order of the
chart, and for a rule the spans of its symbols are tried from the shortest on.  A nonterminal never stands
below itself with the same span, which cuts cycles.  Every attempt at a node uses up one of a number of
attempts shared by the whole tree.

## Main definitions

* `Span`: a nonterminal with the part of the input that it covers.
* `Completions`: the completed rules of a chart by their spans.
* `Reconstruction.node`, `Reconstruction.row`: a tree for a span, trees for a row of symbols.
* `Chart.tree?`: a tree for the whole input.
-/

namespace PhraseStructure

/-- A symbol and the part of the input that it covers. -/
structure Span where
  /-- The symbol. -/
  symbol : Symbol
  /-- Where the part starts. -/
  start : Nat
  /-- Where the part stops. -/
  stop : Nat
deriving DecidableEq, Hashable, Repr

/-- Completed rules by the span of their left side. -/
abbrev Completions := Std.HashMap Span (List Rule)

/-- Adds a rule behind the rules of the same span. -/
def Completions.add (table : Completions) (entry : Span × Rule) : Completions :=
  table.insert entry.1 (table.getD entry.1 [] ++ [entry.2])

/-- The rules completed over a span, in the order of the chart. -/
def Completions.rulesOf (table : Completions) (span : Span) : List Rule :=
  table.getD span []

namespace Chart

/-- The completed items of a chart, position by position. -/
def completions (chart : Chart) : List (Span × Rule) :=
  chart.toList.zipIdx.flatMap fun (set, stop) =>
    (set.items.toList.filter Item.isComplete).map fun item =>
      (⟨item.rule.left, item.origin, stop⟩, item.rule)

/-- The completed rules of a chart by their spans. -/
def completionTable (chart : Chart) : Completions :=
  chart.completions.foldl Completions.add ∅

end Chart

/-- An attempt that may fail and that uses up a shared number of attempts either way. -/
abbrev Attempt := OptionT (StateM Nat)

namespace Reconstruction

/-- Trees for the symbols of `right`, side by side from `start` to `stop`.  A terminal has to stand in the
input; any other symbol is tried on ever longer spans, with `child` to build its tree. -/
def row (v : Vocabulary) (input : Array Symbol) (table : Completions)
    (child : Span → Attempt SyntaxTree) : Word → Nat → Nat → Attempt (List SyntaxTree)
  | [], start, stop => if start = stop then pure [] else failure
  | c :: rest, start, stop =>
    if v.isTerminal c then
      if start < stop && input[start]? == some c then do
        let trees ← row v input table child rest (start + 1) stop
        return .leaf c start :: trees
      else
        failure
    else
      (List.range' start (stop + 1 - start)).firstM fun middle =>
        if (table.rulesOf ⟨c, start, middle⟩).isEmpty then
          failure
        else do
          let tree ← child ⟨c, start, middle⟩
          let trees ← row v input table child rest middle stop
          return tree :: trees

/-- A tree for a span that does not stand below itself.  `depth` bounds the height of the tree, and `above`
holds the spans of the nodes above. -/
def node (v : Vocabulary) (input : Array Symbol) (table : Completions) :
    Nat → List Span → Span → Attempt SyntaxTree
  | 0, _, _ => failure
  | depth + 1, above, span => do
    if (← getThe Nat) = 0 || above.contains span then
      failure
    modifyThe Nat (· - 1)
    (table.rulesOf span).firstM fun rule => do
      let children ← row v input table (node v input table depth (span :: above)) rule.right
        span.start span.stop
      return .node span.symbol span.start span.stop children

end Reconstruction

/-- A syntax tree for the whole input, built with at most the given number of attempts. -/
def Chart.tree? (chart : Chart) (g : Grammar) (attempts : Nat) (w : Word) : Option SyntaxTree :=
  ((Reconstruction.node g.vocabulary w.toArray chart.completionTable attempts []
    ⟨g.start, 0, w.length⟩).run.run attempts).1

end PhraseStructure
