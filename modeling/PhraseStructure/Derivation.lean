import PhraseStructure.Grammar

/-!
# Derivations

A *step* of a derivation replaces one occurrence of the left side of a production by one of its
alternatives.  The relation `Grammar.Step` says which forms are one step apart; the function
`Grammar.successors` lists the steps out of a form, production by production and then by place of
the occurrence.

## Main definitions

* `Grammar.Step`, `Grammar.Derives`: one step, and any number of steps.
* `Step`: what a step replaced, by what, and the form that came out.
* `splits`: the ways to find a word inside a form.
* `Grammar.successors`: all steps out of a form, in order.

## Main results

* `mem_splits`: `splits` finds every occurrence of a nonempty word.
* `Grammar.step_iff_mem_successors`: `successors` lists exactly the steps of the relation, so that it is
  decidable.
-/

namespace PhraseStructure

/-- One step of a derivation, with the form that it reached. -/
structure Step where
  /-- The left side that was replaced. -/
  left : Word
  /-- The alternative that took its place. -/
  right : Word
  /-- The form after the step. -/
  form : Word
deriving DecidableEq, Repr

/-- The replacement made by a step, as text. -/
def ruleText (left right : Word) : String :=
  left.plain ++ " → " ++ right.shown

/-- A step as one line of text; `form` says how the form reached is written. -/
def Step.text (form : Word → String) (s : Step) : String :=
  ruleText s.left s.right ++ "  ⇒  " ++ form s.form

/-- The ways to find a word inside a form: what stands before and after it, from the front of the form
to its end.  The empty word is not looked for at the very end. -/
def splits (w : Word) : Word → List (Word × Word)
  | [] => []
  | c :: cs =>
    ((stripFront w (c :: cs)).map fun rest => ([], rest)).toList ++
      (splits w cs).map fun (before, after) => (c :: before, after)

/-- Every occurrence of a nonempty word is found. -/
theorem mem_splits {w form before after : Word} (h : w ≠ []) :
    (before, after) ∈ splits w form ↔ form = before ++ w ++ after := by
  induction form generalizing before with
  | nil => simp [splits, h]
  | cons c cs ih =>
    cases before with
    | nil => simp [splits, stripFront_eq_some_iff]
    | cons b bs =>
      rw [List.cons_append, List.cons_append, List.cons.injEq, ← ih]
      simp only [splits, List.mem_append, Option.mem_toList, Option.map_eq_some_iff, List.mem_map,
        Prod.mk.injEq, Prod.exists]
      grind

namespace Grammar

/-- One form is a step away from another: an occurrence of a left side gives way to an alternative. -/
def Step {α : Type} [Spelling α] (g : Grammar α) (f f' : Word) : Prop :=
  ∃ p ∈ g.productions, ∃ r ∈ p.alternatives, ∃ u v,
    f = u ++ p.left ++ v ∧ f' = u ++ Spelling.word r ++ v

/-- One form can be turned into another by any number of steps. -/
inductive Derives {α : Type} [Spelling α] (g : Grammar α) (f : Word) : Word → Prop where
  /-- No step at all. -/
  | refl : Derives g f f
  /-- One more step at the end. -/
  | tail {f' f'' : Word} : Derives g f f' → g.Step f' f'' → Derives g f f''

/-- All steps out of a form: production by production, for each from the first occurrence of its left
side to the last, and there alternative by alternative. -/
def successors (g : Grammar) (form : Word) : List PhraseStructure.Step :=
  g.productions.flatMap fun p =>
    (splits p.left form).flatMap fun (before, after) =>
      p.alternatives.map fun r => ⟨p.left, r, before ++ r ++ after⟩

/-- The steps of the relation are exactly the steps that are listed. -/
theorem step_iff_mem_successors {g : Grammar} {f f' : Word} :
    g.Step f f' ↔ ∃ s ∈ g.successors f, s.form = f' := by
  simp only [Step, successors, List.mem_flatMap, List.mem_map, Prod.exists]
  constructor
  · rintro ⟨p, hp, r, hr, u, v, rfl, rfl⟩
    exact ⟨_, ⟨p, hp, u, v, (mem_splits p.left_ne_nil).2 rfl, r, hr, rfl⟩, rfl⟩
  · rintro ⟨_, ⟨p, hp, u, v, hs, r, hr, rfl⟩, rfl⟩
    exact ⟨p, hp, r, hr, u, v, (mem_splits p.left_ne_nil).1 hs, rfl⟩

instance (g : Grammar) (f f' : Word) : Decidable (g.Step f f') :=
  decidable_of_iff ((g.successors f).any fun s => decide (s.form = f'))
    (by simp [step_iff_mem_successors])

end Grammar

end PhraseStructure
