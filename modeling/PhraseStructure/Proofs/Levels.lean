import PhraseStructure.Proofs.Strategies

/-!
# What the level of a grammar promises

The level and the direction of a grammar are read off its productions by two scans: one looks at the shape of
each production, and the other at the pairs among all alternatives.  The strategies rely on what comes out.  The
walk expects every alternative to fit the direction that it reads in, the chart expects rules for single
nonterminals, and the search drops forms that have become longer than its target.  This module says that they may.

At level 3 the scans cannot contradict each other: terminals and nonterminals are disjoint, so a word that fits
one direction is no pair in the other (`isPair_eq_false_of_ne`).  A grammar is regular exactly if one direction
fits all its alternatives (`level_eq_regular_iff`), and the direction that it is given is one of those that fit.
At level 1 the promise is about derivations rather than rules: a start symbol that may be erased never comes back,
hence no step shortens a form except the one that ends at once with the empty word (`length_le_of_step`).

All of this holds for grammars that are composed by hand as well, where an alternative may be spelled with no
symbols and yet not be the mark.  Such an alternative fits no direction and is shorter than every left side, so
it leaves the levels 2 and 0 only (`blank`).

## Main definitions

* `Vocabulary.LinearShape`: the shapes of alternatives that fit a direction.
* `Grammar.LinearIn`: a direction fits all productions.

## Main results

* `Grammar.level_eq_regular_iff`: the grammars of level 3 are those that some direction fits.
* `Grammar.direction_eq_left_iff`: when a regular grammar is read from the end.
* `Grammar.levels_keep_promises`: what the level and the direction of a grammar promise.
-/

namespace PhraseStructure

variable {α : Type} [Spelling α]

/-! ## Shapes -/

/-- The alternatives that fit a direction: the mark of the empty word, one terminal, or a terminal and a
nonterminal that stands on the side which the direction names. -/
inductive Vocabulary.LinearShape (v : Vocabulary) : Direction → α → Prop where
  | mark {d : Direction} {r : α} : Spelling.isMark r = true → LinearShape v d r
  | terminal {d : Direction} {r : α} {a : Symbol} :
      Spelling.word r = [a] → a ∈ v.terminals → LinearShape v d r
  | rightPair {r : α} {a c : Symbol} :
      Spelling.word r = [a, c] → a ∈ v.terminals → c ∈ v.nonterminals → LinearShape v .right r
  | leftPair {r : α} {c a : Symbol} :
      Spelling.word r = [c, a] → c ∈ v.nonterminals → a ∈ v.terminals → LinearShape v .left r

theorem Vocabulary.isLinear_iff_linearShape {v : Vocabulary} {d : Direction} {r : α} :
    v.isLinear d r = true ↔ v.LinearShape d r := by
  constructor
  · intro h
    rw [isLinear, Bool.or_eq_true] at h
    rcases h with hmark | h
    · exact .mark hmark
    split at h
    · next a hword => exact .terminal hword (isTerminal_iff.mp h)
    · cases d with
      | right =>
        obtain ⟨a, ha, c, hc, hword⟩ := Grammar.isPair_right_iff.mp h
        exact .rightPair hword ha hc
      | left =>
        obtain ⟨c, hc, a, ha, hword⟩ := Grammar.isPair_left_iff.mp h
        exact .leftPair hword hc ha
  · intro h
    rw [isLinear, Bool.or_eq_true]
    cases h with
    | mark hmark => exact Or.inl hmark
    | terminal hword ha =>
      rw [hword]
      exact Or.inr (isTerminal_iff.mpr ha)
    | rightPair hword ha hc =>
      rw [hword]
      exact Or.inr (Grammar.isPair_right_iff.mpr ⟨_, ha, _, hc, hword⟩)
    | leftPair hword hc ha =>
      rw [hword]
      exact Or.inr (Grammar.isPair_left_iff.mpr ⟨_, hc, _, ha, hword⟩)

namespace Grammar

variable {g : Grammar α} {d : Direction} {f f' : Word}

/-- A direction fits all productions: they replace single nonterminals, by alternatives of its shapes. -/
def LinearIn (g : Grammar α) (d : Direction) : Prop :=
  ∀ p ∈ g.productions, (∃ c ∈ g.vocabulary.nonterminals, p.left = [c]) ∧
    ∀ r ∈ p.alternatives, g.vocabulary.LinearShape d r

theorem linearIn_iff :
    g.LinearIn d ↔ g.productions.all (·.isContextFree g.vocabulary) = true ∧
      ∀ r ∈ allAlternatives g.productions, g.vocabulary.isLinear d r = true := by
  have hsingle : ∀ p : Production α, p.isContextFree g.vocabulary = true ↔
      ∃ c ∈ g.vocabulary.nonterminals, p.left = [c] := by
    intro p
    rw [Production.isContextFree, Option.any_eq_true]
    simp only [Production.singleLeft_eq_some_iff, Vocabulary.isNonterminal_iff, and_comm]
  rw [← isLinear_iff]
  simp only [LinearIn, List.all_eq_true, Production.isLinear, Bool.and_eq_true, hsingle,
    Vocabulary.isLinear_iff_linearShape]

/-! ## Level 3 -/

/-- **The grammars of level 3 are those that some direction fits.** -/
theorem level_eq_regular_iff : g.level = .regular ↔ ∃ d, g.LinearIn d := by
  constructor
  · intro hlevel
    obtain ⟨d, hfits⟩ := exists_isLinear_of_level hlevel
    exact ⟨d, linearIn_iff.mpr hfits⟩
  · rintro ⟨d, hfits⟩
    rw [linearIn_iff] at hfits
    -- The second scan finds a direction as well, so it does not stand in the way.
    obtain ⟨d', hdirection, -⟩ := directionOf_of_isLinear hfits.2
    have hall := isLinear_iff.mpr hfits
    have hregular : PhraseStructure.isRegular g.vocabulary g.productions = true := by
      rw [PhraseStructure.isRegular, hdirection, Option.isSome_some, Bool.and_true,
        Bool.or_eq_true]
      cases d with
      | right => exact Or.inl hall
      | left => exact Or.inr hall
    rw [level, levelOf, if_pos hregular]

/-- **The direction of a regular grammar fits it.** -/
theorem exists_direction (hlevel : g.level = .regular) :
    ∃ d, g.direction = some d ∧ g.LinearIn d := by
  obtain ⟨d, hdirection, hlinear⟩ := isLinear_direction hlevel
  exact ⟨d, hdirection, linearIn_iff.mpr ⟨isContextFree_of_level (Or.inr hlevel), hlinear⟩⟩

/-- **A regular grammar is read from the end** if some alternative asks for it, and only then: without pairs
the direction is `right`. -/
theorem direction_eq_left_iff (hlevel : g.level = .regular) :
    g.direction = some .left ↔ ∃ p ∈ g.productions, ∃ r ∈ p.alternatives,
      ∃ c ∈ g.vocabulary.nonterminals, ∃ a ∈ g.vocabulary.terminals, Spelling.word r = [c, a] := by
  have hpairs : (allAlternatives g.productions).any (g.vocabulary.isPair .left) = true ↔
      ∃ p ∈ g.productions, ∃ r ∈ p.alternatives,
        ∃ c ∈ g.vocabulary.nonterminals, ∃ a ∈ g.vocabulary.terminals, Spelling.word r = [c, a] := by
    simp only [List.any_eq_true, allAlternatives, List.mem_flatMap, isPair_left_iff]
    constructor
    · rintro ⟨r, ⟨p, hp, hr⟩, hpair⟩
      exact ⟨p, hp, r, hr, hpair⟩
    · rintro ⟨p, hp, r, hr, hpair⟩
      exact ⟨r, ⟨p, hp, hr⟩, hpair⟩
  rw [← hpairs]
  obtain ⟨d, hdirection, hfits⟩ := exists_direction hlevel
  have hlinear := (linearIn_iff.mp hfits).2
  rw [hdirection]
  cases d with
  | right =>
    -- No word that fits to the right is a pair to the left.
    have hnone : (allAlternatives g.productions).any (g.vocabulary.isPair .left) = false :=
      List.any_eq_false.mpr fun r hr => by simp [isPair_eq_false_of_ne (hlinear r hr)]
    simp [hnone]
  | left =>
    rw [direction, if_pos hlevel, directionOf] at hdirection
    cases hpair : (allAlternatives g.productions).any (g.vocabulary.isPair .left) with
    | true => simp
    | false => simp [hpair] at hdirection

/-! ## What is promised -/

theorem not_step_nil : ¬ g.Step [] f := by
  rintro ⟨p, -, r, -, u, v, hform, -⟩
  have hleft := List.append_eq_nil_iff.mp (List.append_eq_nil_iff.mp hform.symm).1
  exact p.left_ne_nil hleft.2

/-- **What the level and the direction of a grammar promise**, whether it was read from text or composed by
hand.  A grammar is of level 3 if and only if some direction fits all its productions.  Its direction is then
one that fits, and it is `left` if and only if some alternative is a nonterminal and then a terminal; grammars
of other levels have no direction.  At levels 2 and 3 left sides are single nonterminals.  At level 1 a step
from a form that the start symbol derives does not shorten the form, unless it erases the lone start symbol;
then there is nothing left to replace. -/
theorem levels_keep_promises (g : Grammar α) :
    (g.level = .regular ↔ ∃ d, g.LinearIn d) ∧
    (g.level = .regular → ∃ d, g.direction = some d ∧ g.LinearIn d ∧
      (d = .left ↔ ∃ p ∈ g.productions, ∃ r ∈ p.alternatives,
        ∃ c ∈ g.vocabulary.nonterminals, ∃ a ∈ g.vocabulary.terminals, Spelling.word r = [c, a])) ∧
    (g.level ≠ .regular → g.direction = none) ∧
    (g.level = .contextFree ∨ g.level = .regular →
      ∀ p ∈ g.productions, ∃ c ∈ g.vocabulary.nonterminals, p.left = [c]) ∧
    (g.level = .contextSensitive → ∀ f f', g.Derives [g.start] f → g.Step f f' →
      f.length ≤ f'.length ∨ f = [g.start] ∧ f' = [] ∧ ∀ f'', ¬ g.Step f' f'') := by
  refine ⟨level_eq_regular_iff, ?_, ?_, ?_, ?_⟩
  · intro hlevel
    obtain ⟨d, hdirection, hfits⟩ := exists_direction hlevel
    refine ⟨d, hdirection, hfits, ?_⟩
    rw [← direction_eq_left_iff hlevel, hdirection, Option.some.injEq]
  · intro hlevel
    rw [direction, if_neg hlevel]
  · intro hlevel p hp
    exact exists_left_eq hlevel hp
  · intro hlevel f f' hderives hstep
    rcases length_le_of_step hlevel hderives hstep with hle | ⟨rfl, rfl⟩
    · exact Or.inl hle
    · exact Or.inr ⟨rfl, rfl, fun f'' => not_step_nil⟩

/-- An `a` or nothing at all, which is given by an alternative of its own. -/
def atMostOne (nothing : Alternative) : Except Fault (Grammar Alternative) := do
  let p ← Production.compose "S" [.spelled ['a'], nothing]
  assemble ['S'] ['a'] [p] 'S'

/-- Nothing at all is the mark. -/
def marked : Grammar Alternative :=
  (atMostOne .mark).toOption.get rfl

/-- Nothing at all is spelled with no symbols. -/
def blank : Grammar Alternative :=
  (atMostOne (.spelled [])).toOption.get rfl

theorem levels_keep_promises_instances :
    (LinearWalk.backwards.level = .regular ∧ LinearWalk.backwards.direction = some .left ∧
      LinearWalk.backwards.LinearIn .left) ∧
    (nested.level = .contextFree ∧ nested.direction = none) ∧
    (FormSearch.equalRuns.level = .contextSensitive ∧ FormSearch.equalRuns.Step ['T'] [] ∧
      ∀ f, ¬ FormSearch.equalRuns.Step [] f) ∧
    (marked.level = .regular ∧ (∃ d, marked.LinearIn d) ∧
      blank.level = .contextFree ∧ blank.direction = none ∧ ¬ ∃ d, blank.LinearIn d) := by
  refine ⟨?_, ?_, ?_, ?_⟩
  · have hlevel : LinearWalk.backwards.level = .regular := by decide
    obtain ⟨-, hregular, -⟩ := levels_keep_promises LinearWalk.backwards
    obtain ⟨d, hdirection, hfits, hleft⟩ := hregular hlevel
    have hpair : ['A', 'b'] ∈ LinearWalk.backwards.alternatives 'S' := by decide
    obtain ⟨p, hp, -, hr⟩ := mem_alternatives.mp hpair
    obtain rfl : d = .left := hleft.mpr ⟨p, hp, _, hr, 'A', by decide, 'b', by decide, rfl⟩
    exact ⟨hlevel, hdirection, hfits⟩
  · have hlevel : nested.level = .contextFree := by decide
    obtain ⟨-, -, hnone, -⟩ := levels_keep_promises nested
    exact ⟨hlevel, hnone (by rw [hlevel]; decide)⟩
  · have hlevel : FormSearch.equalRuns.level = .contextSensitive := by decide
    have hstep : FormSearch.equalRuns.Step ['T'] [] := by decide
    obtain ⟨-, -, -, -, hsensitive⟩ := levels_keep_promises FormSearch.equalRuns
    rcases hsensitive hlevel ['T'] [] .refl hstep with hle | ⟨-, -, hfinal⟩
    · -- This step does shorten its form, so it is the exception.
      exact absurd hle (by decide)
    · exact ⟨hlevel, hstep, hfinal⟩
  · have hmarked : marked.level = .regular := by decide
    have hblank : blank.level = .contextFree := by decide
    have hne : blank.level ≠ .regular := by
      rw [hblank]
      decide
    obtain ⟨hfits, -⟩ := levels_keep_promises marked
    obtain ⟨hfits', -, hnone, -⟩ := levels_keep_promises blank
    exact ⟨hmarked, hfits.mp hmarked, hblank, hnone hne, fun h => hne (hfits'.mpr h)⟩

end Grammar

end PhraseStructure
