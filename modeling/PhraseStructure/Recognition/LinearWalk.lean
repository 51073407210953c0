import PhraseStructure.Budget
import PhraseStructure.Recognition.Answer

/-!
# Walking a regular grammar

A regular grammar is a finite automaton in disguise: its nonterminals are states, and each pair of a
terminal and a nonterminal reads one symbol of the input.  The walk explores the states breadth-first and
remembers each state together with what is left to read.

A right-linear grammar reads the input from its front.  A left-linear grammar reads it from its end, which
is the same walk on the reversed input with reversed alternatives: `Direction.orient` turns words around
where that is needed, and everything else is written for reading from the front.

## Main definitions

* `Direction.orient`: a word as seen by a walk in some direction.
* `LinearWalk.Node`: a state, what was read, and what is left.
* `LinearWalk.finish?`, `LinearWalk.moves`: how a walk can end at a node, and where it can go from there.
* `LinearWalk.search`, `LinearWalk.answer`: the walk and its answer.
-/

namespace PhraseStructure

/-- A word as seen by a walk: from its front in a right-linear grammar, from its end in a left-linear
one. -/
def Direction.orient : Direction → Word → Word
  | right, w => w
  | left, w => w.reverse

@[simp]
theorem Direction.orient_orient (d : Direction) (w : Word) : d.orient (d.orient w) = w := by
  cases d <;> simp [orient]

@[simp]
theorem Direction.length_orient (d : Direction) (w : Word) : (d.orient w).length = w.length := by
  cases d <;> simp [orient]

@[simp]
theorem Direction.orient_singleton (d : Direction) (c : Symbol) : d.orient [c] = [c] := by
  cases d <;> rfl

namespace LinearWalk

/-- A place of the walk and how it was reached. -/
structure Node where
  /-- The nonterminal that stands at the reading position. -/
  state : Symbol
  /-- The symbols read so far, most recent first. -/
  read : Word
  /-- The symbols left to read. -/
  rest : Word
  /-- The steps that led here, most recent first. -/
  path : List Step
deriving DecidableEq, Repr

/-- The form of a derivation that has read some symbols and holds `tail` at the reading position. -/
def form (d : Direction) (read tail : Word) : Word :=
  d.orient (read.reverse ++ tail)

/-- The derivation that an alternative completes at a node: the empty word ends the walk when nothing is
left to read, and a terminal when it is all that is left. -/
def close? (d : Direction) (node : Node) (r : Word) : Option (List Step) :=
  match d.orient r, node.rest with
  | [], [] => some (⟨[node.state], r, form d node.read []⟩ :: node.path)
  | [a], [b] => if a = b then some (⟨[node.state], r, form d (b :: node.read) []⟩ :: node.path) else none
  | _, _ => none

/-- The node that an alternative leads to: a pair reads one symbol and changes the state. -/
def advance? (d : Direction) (node : Node) (r : Word) : Option Node :=
  match d.orient r, node.rest with
  | [a, state], b :: rest =>
    if a = b then
      some ⟨state, b :: node.read, rest,
        ⟨[node.state], r, form d (b :: node.read) [state]⟩ :: node.path⟩
    else
      none
  | _, _ => none

/-- The first way to end the walk at a node: its derivation in order. -/
def finish? (g : Grammar) (d : Direction) (node : Node) : Option (List Step) :=
  ((g.alternatives node.state).findSome? (close? d node)).map List.reverse

/-- The nodes that follow a node. -/
def moves (g : Grammar) (d : Direction) (node : Node) : List Node :=
  (g.alternatives node.state).filterMap (advance? d node)

/-- A node is known by its state and by how much is left to read. -/
def key (node : Node) : Symbol × Nat :=
  (node.state, node.rest.length)

/-- Where the walk begins. -/
def origin (g : Grammar) (d : Direction) (w : Word) : Node where
  state := g.start
  read := []
  rest := d.orient w
  path := []

/-- Walks through the input and looks for a derivation of it. -/
def search (g : Grammar) (d : Direction) (steps : Nat) (w : Word) : Verdict (List Step) :=
  Frontier.search key (moves g d) (finish? g d) steps (origin g d w)

/-- The answer of the walk.  A grammar without a direction is read from the front. -/
def answer (g : Grammar) (b : Budget) (w : Word) : Answer :=
  (search g (g.direction.getD .right) b.walkSteps w).answer Word.plain g.start
    fun _ => .walkGaveUp b.walkSteps

end LinearWalk

end PhraseStructure
