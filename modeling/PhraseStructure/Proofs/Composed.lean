import PhraseStructure.Proofs.Levels
import Mathlib.Data.Set.List

/-!
# Grammars that were read, among those that are composed

A grammar that was read from text is also one that a program could have composed by hand: the empty word among its
alternatives becomes the mark (`Grammar.composed`).  It keeps its level, its direction and its derivations, so
that parsing and enumeration, which are about words, lose nothing.

Not every grammar that is composed by hand is of this kind.  Those that are not have a *blank* alternative, one
that is spelled with no symbols (`exists_composed_eq_iff`).  Blank alternatives fit no direction and are shorter
than any left side, hence they are found at the levels 2 and 0 only: at the levels 1 and 3 every grammar is one
that could have been read (`exists_composed_eq_of_level`).

## Main definitions

* `Grammar.composed`: a grammar that was read, with every empty alternative as the mark.

## Main results

* `Grammar.level_composed`, `Grammar.direction_composed`, `Grammar.step_composed`: nothing changes.
* `Grammar.exists_composed_eq_iff`: the grammars that could have been read are those without blank alternatives.
* `Grammar.exists_composed_eq_of_level`: levels 1 and 3 have no others.
-/

namespace PhraseStructure

/-! ## Productions -/

namespace Alternative

theorem ofWord_injective : Function.Injective ofWord := fun w w' h => by
  rw [← spelling_word_ofWord w, h, spelling_word_ofWord]

theorem ofWord_ne_blank (w : Word) : ofWord w ≠ spelled [] := by
  rw [ofWord]
  split
  · exact Alternative.noConfusion
  · next hw => exact fun h => hw (spelled.inj h)

theorem ofWord_word {r : Alternative} (h : r ≠ spelled []) : ofWord (Spelling.word r) = r := by
  cases r with
  | mark => rfl
  | spelled w =>
    have hw : w ≠ [] := fun hw => h (hw ▸ rfl)
    exact if_neg hw

end Alternative

/-- A production that was read from text, with every empty alternative as the mark. -/
def Production.composed (p : Production) : Production Alternative where
  left := p.left
  alternatives := p.alternatives.map Alternative.ofWord
  left_ne_nil := p.left_ne_nil
  alternatives_ne_nil := by
    rw [Ne, List.map_eq_nil_iff]
    exact p.alternatives_ne_nil
  nodup := p.nodup.map Alternative.ofWord_injective

theorem Production.sides_composed (p : Production) : p.composed.sides = p.sides := by
  rw [sides_eq, sides, composed, List.map_map]
  congr 1
  exact (List.map_congr_left fun w _ => Alternative.spelling_word_ofWord w).trans (List.map_id _)

/-- A production of which no alternative is blank could have been read. -/
theorem Production.exists_composed_eq {q : Production Alternative} (h : .spelled [] ∉ q.alternatives) :
    ∃ p : Production, p.composed = q := by
  obtain ⟨left, alternatives, hleft, hne, hnodup⟩ := q
  have hback : ∀ r ∈ alternatives, Alternative.ofWord (Spelling.word r) = r := fun r hr =>
    Alternative.ofWord_word fun hblank => h (hblank ▸ hr)
  -- Alternatives that spell the same are the same, because none of them is blank.
  have hwords : (alternatives.map Spelling.word).Nodup :=
    hnodup.map_on fun r hr r' hr' heq => by rw [← hback r hr, heq, hback r' hr']
  refine ⟨⟨left, alternatives.map Spelling.word, hleft, by simpa using hne, hwords⟩, ?_⟩
  simp only [composed, List.map_map, Production.mk.injEq, true_and]
  exact (List.map_congr_left hback).trans (List.map_id _)

/-! ## Levels and directions -/

section Composed

variable {v : Vocabulary} {ps : List Production}

theorem allAlternatives_composed :
    allAlternatives (ps.map Production.composed) = (allAlternatives ps).map Alternative.ofWord := by
  simp [allAlternatives, Production.composed, List.flatMap_map, List.map_flatMap]

theorem Vocabulary.isPair_ofWord (d : Direction) (w : Word) :
    v.isPair d (Alternative.ofWord w) = v.isPair d w := by
  simp only [isPair, Alternative.spelling_word_ofWord, Word.spelling_word]

theorem Vocabulary.isLinear_ofWord (d : Direction) (w : Word) :
    v.isLinear d (Alternative.ofWord w) = v.isLinear d w := by
  simp only [isLinear, Alternative.spelling_word_ofWord, Alternative.isMark_ofWord, isPair_ofWord,
    Word.spelling_word]

theorem directionOf_composed : directionOf v (ps.map Production.composed) = directionOf v ps := by
  simp [directionOf, allAlternatives_composed, List.any_map, Function.comp_def, Vocabulary.isPair_ofWord]

theorem isLinear_composed (d : Direction) (p : Production) : p.composed.isLinear v d = p.isLinear v d := by
  simp only [Production.isLinear, Production.composed, List.all_map, Function.comp_def,
    Vocabulary.isLinear_ofWord]
  rfl

theorem isMonotone_composed (start : Symbol) (p : Production) :
    p.composed.isMonotone start = p.isMonotone start := by
  rw [Production.isMonotone, Production.isMonotone, Production.composed, List.all_map]
  congr 1
  funext w
  rw [Function.comp_apply, Alternative.isMark_ofWord, Alternative.spelling_word_ofWord, Word.spelling_word]

theorem erases_composed (p : Production) : p.composed.erases = p.erases := by
  simp only [Production.erases, Production.composed, List.any_map, Function.comp_def, Alternative.isMark_ofWord]

theorem startIsolated_composed (start : Symbol) :
    startIsolated start (ps.map Production.composed) = startIsolated start ps := by
  simp only [startIsolated, List.any_map, List.all_map, allAlternatives_composed, Function.comp_def,
    erases_composed, Alternative.spelling_word_ofWord, Word.spelling_word]
  rfl

theorem levelOf_composed (start : Symbol) :
    levelOf v (ps.map Production.composed) start = levelOf v ps start := by
  have hregular : isRegular v (ps.map Production.composed) = isRegular v ps := by
    rw [isRegular, isRegular, directionOf_composed, List.all_map, List.all_map]
    simp only [Function.comp_def, isLinear_composed]
  have hfree : isContextFree v (ps.map Production.composed) = isContextFree v ps := List.all_map
  have hsensitive : isContextSensitive start (ps.map Production.composed) = isContextSensitive start ps := by
    rw [isContextSensitive, isContextSensitive, startIsolated_composed, List.all_map]
    simp only [Function.comp_def, isMonotone_composed]
  rw [levelOf, levelOf, hregular, hfree, hsensitive]

end Composed

/-! ## Grammars -/

namespace Grammar

/-- A grammar that was read from text, as a program would compose it. -/
def composed (g : Grammar) : Grammar Alternative where
  vocabulary := g.vocabulary
  productions := g.productions.map Production.composed
  start := g.start
  start_mem := g.start_mem
  nodup_left := by
    rw [List.map_map]
    exact g.nodup_left
  declared := by
    rw [List.forall_mem_map]
    intro p hp
    rw [p.sides_composed]
    exact g.declared p hp

theorem level_composed (g : Grammar) : g.composed.level = g.level :=
  levelOf_composed g.start

theorem direction_composed (g : Grammar) : g.composed.direction = g.direction := by
  rw [direction, direction, level_composed]
  congr 1
  exact directionOf_composed

theorem step_composed {g : Grammar} {f f' : Word} : g.composed.Step f f' ↔ g.Step f f' := by
  constructor
  · rintro ⟨p', hp', r', hr', u, v, hf, hf'⟩
    obtain ⟨p, hp, rfl⟩ := List.mem_map.mp hp'
    obtain ⟨r, hr, rfl⟩ := List.mem_map.mp hr'
    rw [Alternative.spelling_word_ofWord] at hf'
    exact ⟨p, hp, r, hr, u, v, hf, hf'⟩
  · rintro ⟨p, hp, r, hr, u, v, hf, hf'⟩
    refine ⟨p.composed, List.mem_map_of_mem hp, Alternative.ofWord r, List.mem_map_of_mem hr, u, v, hf, ?_⟩
    rw [Alternative.spelling_word_ofWord]
    exact hf'

theorem derives_composed {g : Grammar} {f f' : Word} : g.composed.Derives f f' ↔ g.Derives f f' := by
  have hstep : g.composed.Step = g.Step := funext fun _ => funext fun _ => propext step_composed
  rw [derives_iff_reflTransGen, derives_iff_reflTransGen, hstep]

/-! ## What could have been read -/

variable {c : Grammar Alternative}

/-- **What was read is what has no blank alternative.** -/
theorem exists_composed_eq_iff :
    (∃ g : Grammar, g.composed = c) ↔ ∀ p ∈ c.productions, .spelled [] ∉ p.alternatives := by
  constructor
  · rintro ⟨g, rfl⟩ p' hp' hblank
    obtain ⟨p, -, rfl⟩ := List.mem_map.mp hp'
    obtain ⟨w, -, hw⟩ := List.mem_map.mp hblank
    exact Alternative.ofWord_ne_blank w hw
  · intro h
    obtain ⟨ps, hps⟩ : c.productions ∈ Set.range (List.map Production.composed) := by
      rw [Set.range_list_map]
      exact fun q hq => Production.exists_composed_eq (h q hq)
    obtain ⟨vocabulary, productions, start, hstart, hnodup, hdeclared⟩ := c
    obtain rfl : ps.map Production.composed = productions := hps
    refine ⟨⟨vocabulary, ps, start, hstart, ?_, ?_⟩, rfl⟩
    · rw [List.map_map] at hnodup
      exact hnodup
    · intro p hp
      rw [← p.sides_composed]
      exact hdeclared _ (List.mem_map_of_mem hp)

/-- **At levels 1 and 3 there is nothing that could not have been read.** -/
theorem exists_composed_eq_of_level (hlevel : c.level = .contextSensitive ∨ c.level = .regular) :
    ∃ g : Grammar, g.composed = c := by
  rw [exists_composed_eq_iff]
  intro p hp hblank
  rcases hlevel with hlevel | hlevel
  · -- A blank alternative is shorter than its left side, and it is not the mark.
    have hle := left_length_le hlevel hp hblank rfl
    exact p.left_ne_nil (List.eq_nil_of_length_eq_zero (Nat.le_zero.mp hle))
  · obtain ⟨d, hfits⟩ := level_eq_regular_iff.mp hlevel
    cases (hfits p hp).2 _ hblank with
    | mark hmark => cases hmark
    | terminal hword _ => cases hword
    | rightPair hword _ _ => cases hword
    | leftPair hword _ _ => cases hword

end Grammar

end PhraseStructure
