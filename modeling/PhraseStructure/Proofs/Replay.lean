import PhraseStructure.Proofs.Language

/-!
# Derivations told step by step

A strategy that finds a derivation tells it as a list of steps.  Each step names the left side that gave way
and the alternative that took its place, and it shows the form that came out; the place of the replacement
is left to the reader.  `Grammar.Replays` says that such a list can be followed from one form to another.

There is a list to follow exactly where there is a derivation (`exists_replays_iff`), but the list has a
length, and derivations can be compared by it.

## Main definitions

* `Grammar.Replays`: steps that lead from one form to another, one after the other.

## Main results

* `Grammar.replays_cons_iff`: the first step is one of those listed for the form.
* `Grammar.exists_replays_iff`: what is derived can be told.
-/

namespace PhraseStructure.Grammar

variable {g : Grammar} {f f' w : Word} {s : PhraseStructure.Step}
  {steps steps' : List PhraseStructure.Step}

/-- Steps that lead from one form to another, one after the other: each replaces one occurrence of the left
side that it names by the alternative that it names, and shows the form that comes out. -/
inductive Replays (g : Grammar) : Word → List PhraseStructure.Step → Word → Prop where
  /-- Nothing is left to do. -/
  | nil {f : Word} : Replays g f [] f
  /-- One step, and then the others. -/
  | cons {p : Production} {r u v w : Word} {steps : List PhraseStructure.Step} :
      p ∈ g.productions → r ∈ p.alternatives → Replays g (u ++ r ++ v) steps w →
      Replays g (u ++ p.left ++ v) (⟨p.left, r, u ++ r ++ v⟩ :: steps) w

theorem mem_successors :
    s ∈ g.successors f ↔ ∃ p ∈ g.productions, ∃ r ∈ p.alternatives, ∃ u v,
      f = u ++ p.left ++ v ∧ ⟨p.left, r, u ++ r ++ v⟩ = s := by
  simp only [successors, List.mem_flatMap, List.mem_map, Prod.exists]
  constructor
  · rintro ⟨p, hp, u, v, hsplit, r, hr, hs⟩
    exact ⟨p, hp, r, hr, u, v, (mem_splits p.left_ne_nil).mp hsplit, hs⟩
  · rintro ⟨p, hp, r, hr, u, v, hform, hs⟩
    exact ⟨p, hp, u, v, (mem_splits p.left_ne_nil).mpr hform, r, hr, hs⟩

/-- **The first step is one of those listed for the form**, and the others go on from what it shows. -/
theorem replays_cons_iff :
    g.Replays f (s :: steps) w ↔ s ∈ g.successors f ∧ g.Replays s.form steps w := by
  rw [mem_successors]
  constructor
  · rintro ⟨⟩
    next p r u v hp hr hrest => exact ⟨⟨p, hp, r, hr, u, v, rfl, rfl⟩, hrest⟩
  · rintro ⟨⟨p, hp, r, hr, u, v, rfl, rfl⟩, hrest⟩
    exact .cons hp hr hrest

theorem Replays.append (h : g.Replays f steps f') (h' : g.Replays f' steps' w) :
    g.Replays f (steps ++ steps') w := by
  induction h with
  | nil => exact h'
  | cons hp hr _ ih => exact .cons hp hr (ih h')

/-- One more step at the end. -/
theorem Replays.snoc (h : g.Replays f steps f') (hs : s ∈ g.successors f') :
    g.Replays f (steps ++ [s]) s.form :=
  h.append (replays_cons_iff.mpr ⟨hs, .nil⟩)

/-- **What is derived can be told**, and only that. -/
theorem exists_replays_iff : (∃ steps, g.Replays f steps w) ↔ g.Derives f w := by
  constructor
  · rintro ⟨steps, h⟩
    induction h with
    | nil => exact .refl
    | cons hp hr _ ih => exact .head ⟨_, hp, _, hr, _, _, rfl, rfl⟩ ih
  · intro h
    induction h with
    | refl => exact ⟨[], .nil⟩
    | tail _ hstep ih =>
      obtain ⟨steps, hsteps⟩ := ih
      obtain ⟨s, hs, rfl⟩ := step_iff_mem_successors.mp hstep
      exact ⟨steps ++ [s], hsteps.snoc hs⟩

end PhraseStructure.Grammar
