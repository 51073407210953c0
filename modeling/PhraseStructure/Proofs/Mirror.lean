import PhraseStructure.Proofs.Levels
import PhraseStructure.Proofs.Persistence
import PhraseStructure.Proofs.RenamedSearches
import PhraseStructure.Proofs.StoredSearches

/-!
# Reading from the other side

Turn around all alternatives of a grammar that is read from the end, and what comes out is read from the front.
The two walks are the same walk: wherever one of them stands in a word, the other one stands at the mirrored place
of the reversed word, with the same state and with as much left to read.  So they visit their places in the same
order, whatever their ceiling is, and end alike, with derivations whose forms are turned around step by step.

The walk of this library sees words through `Direction.orient`, which turns a second time what was turned around
once (`Direction.orient_flip_reverse`).  What it has read and what it has left to read are then the same words on
both sides, and only the derivations that it carries along differ (`LinearWalk.Node.mirror`).  The walk over stored
places has two ways instead to begin, to look up a symbol, and to cut its input; that they mirror each other, too,
follows because it gives the answers of the walk of this library.

## Main definitions

* `Grammar.mirror`: the grammar with its alternatives reversed.
* `Step.mirror`: a step of a derivation, seen from the other side.
* `LinearWalk.Mirrors`: two answers that tell the same from either side.

## Main results

* `Grammar.LinearIn.mirror`, `Grammar.direction_mirror`: the mirrored grammar is read from the other side.
* `LinearWalk.search_mirror`: walks mirror each other in either direction, step by step.
* `LinearWalk.walks_mirror_each_other`: the walks of a grammar that is read from the end, and of its mirror.
-/

namespace PhraseStructure

/-! ## Words and rules -/

/-- The other direction. -/
def Direction.flip : Direction → Direction
  | right => left
  | left => right

theorem Direction.orient_flip (d : Direction) (w : Word) : d.flip.orient w = (d.orient w).reverse := by
  cases d with
  | right => rfl
  | left => exact w.reverse_reverse.symm

/-- Seen from the other side, a reversed word is what it was. -/
@[simp]
theorem Direction.orient_flip_reverse (d : Direction) (w : Word) : d.flip.orient w.reverse = d.orient w := by
  cases d with
  | right => exact w.reverse_reverse
  | left => rfl

/-- A production with its alternatives reversed. -/
def Production.mirror (p : Production) : Production where
  left := p.left
  alternatives := p.alternatives.map List.reverse
  left_ne_nil := p.left_ne_nil
  alternatives_ne_nil := by simpa using p.alternatives_ne_nil
  nodup := p.nodup.map List.reverse_injective

namespace Grammar

variable {g : Grammar} {d : Direction}

/-- A grammar with all its alternatives reversed. -/
def mirror (g : Grammar) : Grammar where
  vocabulary := g.vocabulary
  productions := g.productions.map Production.mirror
  start := g.start
  start_mem := g.start_mem
  nodup_left := by
    rw [List.map_map]
    exact g.nodup_left
  declared := by
    simp only [List.forall_mem_map, Production.sides_eq, Production.mirror, List.forall_mem_cons, List.mem_reverse]
    intro p hp
    have hdeclared := g.declared p hp
    rw [p.sides_eq] at hdeclared
    exact List.forall_mem_cons.mp hdeclared

theorem alternatives_mirror (g : Grammar) (c : Symbol) :
    g.mirror.alternatives c = (g.alternatives c).map List.reverse := by
  have hleft : ∀ p : Production, p.mirror.singleLeft = p.singleLeft := fun _ => rfl
  simp only [alternatives, mirror, List.filter_map, Function.comp_def, hleft, List.flatMap_map,
    List.map_flatMap]
  rfl

/-! ## The hierarchy -/

theorem linearShape_reverse {v : Vocabulary} {r : Word} (h : v.LinearShape d r) :
    v.LinearShape d.flip r.reverse := by
  cases h with
  | mark hmark => exact .mark (by simpa using hmark)
  | terminal hword ha =>
    obtain rfl : r = [_] := hword
    exact .terminal rfl ha
  | rightPair hword ha hc =>
    obtain rfl : r = [_, _] := hword
    exact .leftPair rfl hc ha
  | leftPair hword hc ha =>
    obtain rfl : r = [_, _] := hword
    exact .rightPair rfl ha hc

/-- **The other direction fits the mirrored grammar.** -/
theorem LinearIn.mirror (h : g.LinearIn d) : g.mirror.LinearIn d.flip := by
  rw [LinearIn, Grammar.mirror, List.forall_mem_map]
  intro p hp
  obtain ⟨hleft, hshapes⟩ := h p hp
  refine ⟨hleft, ?_⟩
  rw [Production.mirror, List.forall_mem_map]
  intro r hr
  exact linearShape_reverse (hshapes r hr)

theorem level_of_direction (h : g.direction = some d) : g.level = .regular := by
  by_contra hlevel
  rw [direction, if_neg hlevel] at h
  cases h

/-- **The mirror of a grammar that is read from the end is read from the front.** -/
theorem direction_mirror (h : g.direction = some .left) :
    g.mirror.level = .regular ∧ g.mirror.direction = some .right := by
  obtain ⟨d, hd, hfits⟩ := exists_direction (level_of_direction h)
  obtain rfl : d = .left := by
    rw [h, Option.some.injEq] at hd
    exact hd.symm
  have hlevel : g.mirror.level = .regular := level_eq_regular_iff.mpr ⟨_, hfits.mirror⟩
  refine ⟨hlevel, ?_⟩
  obtain ⟨d', hd', -⟩ := exists_direction hlevel
  cases d' with
  | right => exact hd'
  | left =>
    -- A nonterminal and then a terminal cannot fit the direction of the mirror, too.
    obtain ⟨p, hp, r, hr, c, hc, a, ha, hpair⟩ := (direction_eq_left_iff hlevel).mp hd'
    obtain rfl : r = [c, a] := hpair
    have hshape := (hfits.mirror p hp).2 _ hr
    cases hshape with
    | mark hmark => cases hmark
    | terminal hword _ => cases hword
    | rightPair hword hc' _ =>
      obtain ⟨rfl, -⟩ := List.cons.inj hword
      exact absurd hc' (g.vocabulary.disjoint c hc)

end Grammar

/-! ## Walks -/

/-- A step of a derivation seen from the other side: the same symbol gives way to the reversed alternative. -/
def Step.mirror (s : Step) : Step :=
  ⟨s.left, s.right.reverse, s.form.reverse⟩

namespace LinearWalk

variable {g : Grammar} {d : Direction} {w : Word}

/-- A place of a walk as it is reached from the other side: what was read and what is left are the same there. -/
def Node.mirror (node : Node) : Node :=
  { node with path := node.path.map Step.mirror }

theorem form_flip (d : Direction) (read tail : Word) : form d.flip read tail = (form d read tail).reverse :=
  d.orient_flip _

theorem close?_mirror (d : Direction) (node : Node) (r : Word) :
    close? d.flip node.mirror r.reverse = (close? d node r).map (List.map Step.mirror) := by
  obtain ⟨state, read, rest, path⟩ := node
  unfold close?
  rw [Direction.orient_flip_reverse]
  simp only [Node.mirror, form_flip]
  match d.orient r, rest with
  | [], [] => rfl
  | [a], [b] =>
    by_cases hab : a = b
    · simp [hab, Step.mirror]
    · simp [hab]
  | [], _ :: _ | [_], [] | [_], _ :: _ :: _ | _ :: _ :: _, _ => rfl

theorem advance?_mirror (d : Direction) (node : Node) (r : Word) :
    advance? d.flip node.mirror r.reverse = (advance? d node r).map Node.mirror := by
  obtain ⟨state, read, rest, path⟩ := node
  unfold advance?
  rw [Direction.orient_flip_reverse]
  simp only [Node.mirror, form_flip]
  match d.orient r, rest with
  | [a, state'], b :: rest =>
    by_cases hab : a = b
    · simp [hab, Node.mirror, Step.mirror]
    · simp [hab]
  | [], _ | [_], _ | [_, _], [] | _ :: _ :: _ :: _, _ => rfl

theorem finish?_mirror (g : Grammar) (d : Direction) (node : Node) :
    finish? g.mirror d.flip node.mirror = (finish? g d node).map (List.map Step.mirror) := by
  have hcomp : close? d.flip node.mirror ∘ List.reverse = Option.map (List.map Step.mirror) ∘ close? d node :=
    funext (close?_mirror d node)
  rw [finish?, finish?, show node.mirror.state = node.state from rfl, Grammar.alternatives_mirror,
    List.findSome?_map, hcomp, ← List.map_findSome?]
  simp [Function.comp_def]

theorem moves_mirror (g : Grammar) (d : Direction) (node : Node) :
    moves g.mirror d.flip node.mirror = (moves g d node).map Node.mirror := by
  rw [moves, moves, show node.mirror.state = node.state from rfl, Grammar.alternatives_mirror,
    List.filterMap_map, List.map_filterMap]
  congr 1
  funext r
  exact advance?_mirror d node r

/-- **Walks mirror each other**, however far they come. -/
theorem search_mirror (g : Grammar) (d : Direction) (steps : Nat) (w : Word) :
    search g.mirror d.flip steps w.reverse = (search g d steps w).map (List.map Step.mirror) := by
  have horigin : origin g.mirror d.flip w.reverse = (origin g d w).mirror := by
    simp [origin, Node.mirror, Grammar.mirror]
  have hkey : ∀ node : Node, key node.mirror = id (key node) := fun _ => rfl
  rw [search, search, horigin]
  exact Frontier.search_of_image Function.injective_id hkey (moves_mirror g d) (finish?_mirror g d) steps _

/-- Two answers tell the same from either side.  They tell derivations in which step by step the same symbol
gives way, to an alternative and with a form that are turned around, or they reject with the same notes. -/
def Mirrors (start : Symbol) (a a' : Answer) : Prop :=
  (∃ steps : List Step,
    a = ⟨⟨true, some (.linear (derivationLines Word.plain start steps))⟩, []⟩ ∧
    a' = ⟨⟨true, some (.linear (derivationLines Word.plain start (steps.map Step.mirror)))⟩, []⟩) ∨
  a = a' ∧ a.outcome = .rejected

theorem mirrors_answer (start : Symbol) (gaveUp : Nat → Event) (verdict : Verdict (List Step)) :
    Mirrors start (verdict.answer Word.plain start gaveUp)
      ((verdict.map (List.map Step.mirror)).answer Word.plain start gaveUp) := by
  cases verdict with
  | found steps => exact Or.inl ⟨steps, rfl, rfl⟩
  | exhausted => exact Or.inr ⟨rfl, rfl⟩
  | gaveUp waiting => exact Or.inr ⟨rfl, rfl⟩

theorem mirrors_of_direction (h : g.direction = some .left) (b : Budget) (w : Word) :
    Mirrors g.start (answer g b w) (answer g.mirror b w.reverse) := by
  have hsearch := search_mirror g .left b.walkSteps w
  rw [answer, answer, h, (Grammar.direction_mirror h).2, Option.getD_some, Option.getD_some]
  rw [Direction.flip] at hsearch
  rw [hsearch]
  exact mirrors_answer g.start _ _

/-- **The walk from the end mirrors the walk from the front.**  Reverse the alternatives of a grammar that is read
from the end.  They make up a grammar of level 3 that is read from the front, and on every word and with every
ceiling its walk through the reversed word answers as the walk through the word does: with a derivation whose steps
are the mirrored steps, or with the same rejection.  The walks over stored places do so as well, for what can be
counted in 64 bits. -/
theorem walks_mirror_each_other (h : g.direction = some .left) :
    Grammar.assemble g.vocabulary.nonterminals.toList g.vocabulary.terminals.toList
      (g.productions.map Production.mirror) g.start = .ok g.mirror ∧
    g.mirror.level = .regular ∧ g.mirror.direction = some .right ∧
    ∀ (b : Budget) (w : Word),
      Mirrors g.start (answer g b w) (answer g.mirror b w.reverse) ∧
      (b.walkSteps < wordLimit → w.length < wordLimit →
        ∃ a a', storedAnswer g b w = .ok a ∧ storedAnswer g.mirror b w.reverse = .ok a' ∧
          Mirrors g.start a a') := by
  obtain ⟨hlevel, hdirection⟩ := Grammar.direction_mirror h
  refine ⟨Grammar.assemble_self g.mirror, hlevel, hdirection, ?_⟩
  intro b w
  have hmirrors := mirrors_of_direction h b w
  refine ⟨hmirrors, ?_⟩
  intro hsteps hw
  have hreverse : w.reverse.length < wordLimit := by rwa [List.length_reverse]
  exact ⟨_, _, storedAnswer_eq hsteps hw, storedAnswer_eq hsteps hreverse, hmirrors⟩

theorem walks_mirror_each_other_backwards :
    backwards.direction = some .left ∧ backwards.mirror.direction = some .right ∧
      ∀ steps, Mirrors 'S' (answer backwards { walkSteps := steps } ['a', 'a', 'b'])
        (answer backwards.mirror { walkSteps := steps } ['b', 'a', 'a']) := by
  have hleft : backwards.direction = some .left := by decide
  obtain ⟨-, -, hright, hanswers⟩ := walks_mirror_each_other hleft
  refine ⟨hleft, hright, ?_⟩
  intro steps
  exact (hanswers { walkSteps := steps } ['a', 'a', 'b']).1

end LinearWalk

end PhraseStructure
