import PhraseStructure.Budget
import PhraseStructure.Recognition.Answer

/-!
# Searching sentential forms

Grammars without a better strategy are searched breadth-first from the start symbol, one derivation step
at a time, until the target turns up.  Forms longer than a cap are dropped.  For context-sensitive
grammars no form longer than the target can lead back to it, so their cap is the length of the target, or
one for the empty word, which only the lone start symbol can reach.

## Main definitions

* `FormSearch.cap`: the longest form that is kept.
* `FormSearch.search`: the search below a given cap.
* `FormSearch.answer`: the answer for a word.
-/

namespace PhraseStructure.FormSearch

/-- A form and how it was reached. -/
structure Node where
  /-- The form. -/
  form : Word
  /-- The steps that led here, most recent first. -/
  path : List Step
deriving DecidableEq, Repr

/-- The forms one step away that fit the cap. -/
def moves (g : Grammar) (cap : Nat) (node : Node) : List Node :=
  ((g.successors node.form).filter fun s => s.form.length ≤ cap).map fun s =>
    ⟨s.form, s :: node.path⟩

/-- The derivation that led to a node, if the node is the target. -/
def finish? (target : Word) (node : Node) : Option (List Step) :=
  if node.form = target then some node.path.reverse else none

/-- Looks for a derivation of the target through forms that fit the cap. -/
def search (g : Grammar) (cap steps : Nat) (target : Word) : Verdict (List Step) :=
  Frontier.search Node.form (moves g cap) (finish? target) steps ⟨[g.start], []⟩

/-- The longest form kept on the way to a target of `n` symbols. -/
def cap (g : Grammar) (b : Budget) (n : Nat) : Except Overflow Nat :=
  match g.level with
  | .contextSensitive => (b.lengthCap n).map fun cap => min cap (max n 1)
  | _ => b.lengthCap n

/-- The answer of the search; it needs a cap that fits into 64 bits. -/
def answer (g : Grammar) (b : Budget) (target : Word) : Except Overflow Answer :=
  (cap g b target.length).map fun cap =>
    (search g cap b.searchSteps target).answer Word.shown g.start (.searchGaveUp b.searchSteps)

end PhraseStructure.FormSearch
