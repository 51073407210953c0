import PhraseStructure.Proofs.Chart
import PhraseStructure.Proofs.FormSearch
import PhraseStructure.Proofs.LinearWalk
import PhraseStructure.Recognition

/-!
# What is accepted is derived

Every strategy may be tried on every grammar, with any budget.  It may then miss words of the language,
but it never accepts a word that cannot be derived: what a walk or a search finds is the end of a path
from the start symbol, and what a chart completes is yielded by the rules.  None of this needs the level
of the grammar, and none of it needs the search to come to an end.

## Main results

* `Grammar.derives_of_accepted_answerBy`: what a strategy accepts is derived.
* `Grammar.accepted_is_derived`: acceptance is sound, for the strategy that fits and for any other.
-/

namespace PhraseStructure

variable {g : Grammar} {b : Budget} {w : Word}

theorem LinearWalk.derives_of_accepted (h : (answer g b w).outcome.accepted = true) :
    g.Derives [g.start] w := by
  rw [answer, Verdict.accepted_answer] at h
  obtain ⟨steps, hfound⟩ := h
  obtain ⟨node, hnode, hgoal⟩ := Frontier.search_found hfound
  have hruns := exists_leads_iff_runs.mp ⟨node, hnode, by rw [hgoal]; exact Option.some_ne_none _⟩
  -- The walk begins with the whole input, turned into its direction; turning it back gives the word.
  simpa [origin] using hruns.derives

theorem Chart.derives_of_accepted (h : (answer g b w).outcome.accepted = true) :
    g.Derives [g.start] w := by
  obtain ⟨-, -, hyields⟩ := accepted_answer_iff.mp h
  exact (Grammar.yields_iff.mp hyields).2.derives

theorem FormSearch.derives_of_accepted {a : Answer} (h : answer g b w = .ok a)
    (haccepted : a.outcome.accepted = true) : g.Derives [g.start] w := by
  obtain ⟨cap, found, -, hfound, -⟩ := exists_found_of_accepted h haccepted
  exact (derivesWithin_of_search_found hfound).derives

namespace Grammar

/-- **What a strategy accepts is derived**, whatever the level of the grammar. -/
theorem derives_of_accepted_answerBy {strategy : Strategy} {a : Answer}
    (h : g.answerBy b w strategy = .ok a) (haccepted : a.outcome.accepted = true) :
    g.Derives [g.start] w := by
  cases strategy with
  | walk =>
    cases h
    exact LinearWalk.derives_of_accepted haccepted
  | chart =>
    cases h
    exact Chart.derives_of_accepted haccepted
  | search => exact FormSearch.derives_of_accepted h haccepted

/-- A word that passes on to a strategy has terminals only. -/
theorem answerWord_cases {a : Answer} (h : g.answerWord b w = .ok a) :
    a.outcome.accepted = false ∨
      (∀ c ∈ w, c ∈ g.vocabulary.terminals) ∧ g.answerBy b w g.strategy = .ok a := by
  rw [answerWord] at h
  split at h
  · cases h
    exact .inl rfl
  · next hstray =>
    refine .inr ⟨?_, h⟩
    intro c hc
    simpa [Vocabulary.isTerminal] using List.find?_eq_none.mp hstray c hc

/-- **Acceptance is sound**, for every grammar and every budget: a text that is accepted stands for a word
of the language, and a word that some strategy accepts, fitting or not, is derived from the start symbol. -/
theorem accepted_is_derived (g : Grammar) (b : Budget) :
    (∀ input a, g.answer b input = .ok a → a.outcome.accepted = true →
      (∀ c ∈ Word.read input, c ∈ g.vocabulary.terminals) ∧
        g.Derives [g.start] (Word.read input)) ∧
    (∀ w strategy a, g.answerBy b w strategy = .ok a → a.outcome.accepted = true →
      g.Derives [g.start] w) := by
  constructor
  · intro input a h haccepted
    rw [answer] at h
    rcases answerWord_cases h with hrejected | ⟨hterminals, h⟩
    · rw [hrejected] at haccepted
      cases haccepted
    · exact ⟨hterminals, derives_of_accepted_answerBy h haccepted⟩
  · intro w strategy a h haccepted
    exact derives_of_accepted_answerBy h haccepted

theorem accepted_is_derived_ambiguous :
    (∃ a, Chart.ambiguous.answer {} "a" = .ok a ∧ a.outcome.accepted = true ∧
      'a' ∈ Chart.ambiguous.vocabulary.terminals) ∧
    (∃ a, Chart.ambiguous.answerBy {} ['a'] .walk = .ok a ∧ a.outcome.accepted = true ∧
      Chart.ambiguous.Derives ['S'] ['a']) := by
  obtain ⟨hfitting, hany⟩ := accepted_is_derived Chart.ambiguous {}
  constructor
  · have hbuild : ∃ chart, Chart.build Chart.ambiguous ({} : Budget).chartSteps ['a'] = some chart :=
      Chart.exists_build (by decide)
    have hrule : ⟨'S', ['a']⟩ ∈ Chart.ambiguous.rules := by decide
    have hyields : Chart.ambiguous.Yields ['S'] ['a'] :=
      yields_singleton hrule (by decide) (.terminal (by decide) .nil)
    have haccepted : (Chart.answer Chart.ambiguous {} ['a']).outcome.accepted = true :=
      Chart.accepted_answer_iff.mpr (hbuild.imp fun _ h => ⟨h, hyields⟩)
    have hanswer : Chart.ambiguous.answer {} "a" = .ok (Chart.answer Chart.ambiguous {} ['a']) := rfl
    exact ⟨_, hanswer, haccepted, (hfitting "a" _ hanswer haccepted).1 'a' (by decide)⟩
  · -- The grammar is not regular, but its walk can be tried all the same.
    have haccepted : (LinearWalk.answer Chart.ambiguous {} ['a']).outcome.accepted = true := rfl
    exact ⟨_, rfl, haccepted, hany ['a'] .walk _ rfl haccepted⟩

end Grammar

end PhraseStructure
