import Std.Data.HashSet

/-!
# Breadth-first exploration

A `Frontier` is the state of a breadth-first exploration: nodes that wait to be visited, in the order in
which they were discovered, and the keys of all nodes discovered so far.  A node whose key is known is
never discovered again.

One loop, `Frontier.explore`, serves every search of this library.  It visits waiting nodes one after
another until its ceiling is reached, nothing waits, or what has been gathered is enough.  A search for
a single goal is the special case `Frontier.search`.

## Main definitions

* `Frontier`: waiting nodes and known keys.
* `Frontier.explore`: visit nodes and gather from them.
* `Frontier.search`, `Verdict`: look for a goal, and how that can end.

## Main results

* `Frontier.toList_pop?`: the node visited is the one that has waited longest.
* `Frontier.toList_offer`: a discovered node waits behind all others.
-/

namespace PhraseStructure

/-- Nodes waiting to be visited and the keys of all nodes discovered so far.  The waiting nodes are those
of `front` and then those of `back` from its end. -/
structure Frontier (ν κ : Type) [BEq κ] [Hashable κ] where
  /-- The nodes to be visited next, in order. -/
  front : List ν
  /-- The nodes discovered last, most recent first. -/
  back : List ν
  /-- Keys of all nodes discovered so far. -/
  seen : Std.HashSet κ

/-- How a search for a goal can end. -/
inductive Verdict (τ : Type) where
  /-- A goal was reached. -/
  | found (result : τ)
  /-- Everything that can be discovered was visited, and it holds no goal. -/
  | exhausted
  /-- The ceiling was reached with some nodes still waiting. -/
  | gaveUp (waiting : Nat)
deriving DecidableEq, Repr

namespace Frontier

variable {ν κ ω τ : Type} [BEq κ] [Hashable κ]

/-- The waiting nodes, the one that has waited longest first. -/
def toList (frontier : Frontier ν κ) : List ν :=
  frontier.front ++ frontier.back.reverse

/-- The frontier of an exploration that has discovered a single node. -/
def singleton (key : ν → κ) (node : ν) : Frontier ν κ where
  front := [node]
  back := []
  seen := (∅ : Std.HashSet κ).insert (key node)

/-- Takes out the node that has waited longest. -/
def pop? (frontier : Frontier ν κ) : Option (ν × Frontier ν κ) :=
  match frontier with
  | ⟨node :: front, back, seen⟩ => some (node, ⟨front, back, seen⟩)
  | ⟨[], back, seen⟩ =>
    match back.reverse with
    | [] => none
    | node :: front => some (node, ⟨front, [], seen⟩)

/-- Lets a node wait behind all others, unless its key is known. -/
def offer (key : ν → κ) (frontier : Frontier ν κ) (node : ν) : Frontier ν κ :=
  if frontier.seen.contains (key node) then
    frontier
  else
    { frontier with back := node :: frontier.back, seen := frontier.seen.insert (key node) }

/-- Visits waiting nodes, at most as many as the ceiling says.  `expand` gives the nodes that a visit
leads to, `gather` adds what a visit brings to what was gathered before, and the exploration ends early
once that is `enough`.  The answer tells how much of the ceiling is left, what was gathered, and what is
still waiting. -/
def explore (key : ν → κ) (expand : ν → List ν) (gather : ω → ν → ω) (enough : ω → Bool) :
    Nat → ω → Frontier ν κ → Nat × ω × Frontier ν κ
  | 0, gathered, frontier => (0, gathered, frontier)
  | steps + 1, gathered, frontier =>
    if enough gathered then
      (steps + 1, gathered, frontier)
    else
      match frontier.pop? with
      | none => (steps + 1, gathered, frontier)
      | some (node, frontier) =>
        explore key expand gather enough steps (gather gathered node)
          ((expand node).foldl (offer key) frontier)

/-- Visits nodes from a single one on, until one of them is a goal. -/
def search (key : ν → κ) (expand : ν → List ν) (goal : ν → Option τ) (steps : Nat) (node : ν) :
    Verdict τ :=
  match explore key expand (fun _ node => goal node) Option.isSome steps none
      (singleton key node) with
  | (_, some result, _) => .found result
  | (_, none, frontier) =>
    match frontier.toList with
    | [] => .exhausted
    | waiting => .gaveUp waiting.length

@[simp]
theorem toList_singleton (key : ν → κ) (node : ν) : (singleton key node).toList = [node] := rfl

/-- The node taken out is the one that has waited longest, and the others keep their order. -/
theorem toList_pop? (frontier : Frontier ν κ) :
    frontier.toList =
      match frontier.pop? with
      | none => []
      | some (node, rest) => node :: rest.toList := by
  obtain ⟨front, back, seen⟩ := frontier
  cases front with
  | cons node front => rfl
  | nil =>
    cases h : back.reverse with
    | nil => simp [toList, pop?, h]
    | cons node front => simp [toList, pop?, h]

/-- A node whose key is new waits behind all others; any other changes nothing. -/
theorem toList_offer (key : ν → κ) (frontier : Frontier ν κ) (node : ν) :
    (frontier.offer key node).toList =
      if frontier.seen.contains (key node) then frontier.toList
      else frontier.toList ++ [node] := by
  rw [offer]
  split <;> simp [toList]

end Frontier

end PhraseStructure
