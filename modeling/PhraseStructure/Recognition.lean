import PhraseStructure.Recognition.FormSearch
import PhraseStructure.Recognition.LinearWalk
import PhraseStructure.Recognition.Reconstruction

/-!
# Membership

The level of a grammar decides how membership in its language is decided: regular grammars are walked,
context-free grammars are parsed with a chart, and all others are searched form by form.

## Main definitions

* `Chart.answer`: the answer of a chart.
* `Strategy`, `Grammar.answerBy`: a strategy of one's own choice, on the bare input.
* `Grammar.answer`: the strategy that fits the level, with `ε` read as the empty word.
-/

namespace PhraseStructure

/-- The answer of a chart.  The completed items at the end of the input are reported also for a word that
is not accepted; a chart that is not finished leaves a bare rejection. -/
def Chart.answer (g : Grammar) (b : Budget) (w : Word) : Answer :=
  match Chart.build g b.chartSteps w with
  | none => ⟨.rejected, [.chartExceeded b.chartSteps]⟩
  | some chart =>
    let accepted := chart.accepts g.start w.length
    let completed := ((chart.completedAt w.length).take b.completedShown).map (·.text w.length)
    let tree := if accepted then chart.tree? g b.chartSteps w else none
    let derivation := (tree.map fun t => t.uses.map Use.text).getD []
    ⟨⟨accepted, some (.chart completed derivation tree)⟩, []⟩

/-- The ways to decide membership. -/
inductive Strategy where
  /-- Walk a regular grammar. -/
  | walk
  /-- Parse with a chart. -/
  | chart
  /-- Search sentential forms. -/
  | search
deriving DecidableEq, Repr

namespace Grammar

/-- The strategy that fits the level of a grammar. -/
def strategy (g : Grammar) : Strategy :=
  match g.level with
  | .regular => .walk
  | .contextFree => .chart
  | .contextSensitive => .search
  | .unrestricted => .search

/-- Decides membership of a word by a given strategy, whatever the level of the grammar. -/
def answerBy (g : Grammar) (b : Budget) (w : Word) : Strategy → Except Overflow Answer
  | .walk => .ok (LinearWalk.answer g b w)
  | .chart => .ok (Chart.answer g b w)
  | .search => FormSearch.answer g b w

/-- Decides membership of a word by the strategy that fits the level.  A word with a symbol that is no
terminal is rejected at once. -/
def answerWord (g : Grammar) (b : Budget) (w : Word) : Except Overflow Answer :=
  match w.find? fun c => !g.vocabulary.isTerminal c with
  | some stray => .ok ⟨.rejected, [.strayInput stray]⟩
  | none => g.answerBy b w g.strategy

/-- Decides membership of a text, with `ε` read as the empty word. -/
def answer (g : Grammar) (b : Budget) (input : String) : Except Overflow Answer :=
  g.answerWord b (Word.read input)

end Grammar

end PhraseStructure
