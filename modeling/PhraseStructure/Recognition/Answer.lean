import PhraseStructure.Derivation
import PhraseStructure.Frontier
import PhraseStructure.Journal
import PhraseStructure.Outcome

/-!
# Answers

Every way of deciding membership answers with an `Outcome` and the events it left on the way.  This
module turns the verdict of a search for a derivation into such an answer.
-/

namespace PhraseStructure

/-- An outcome with the events that led to it, oldest first. -/
structure Answer where
  /-- Whether the word belongs to the language, and why. -/
  outcome : Outcome
  /-- What happened on the way. -/
  events : List Event
deriving Repr

/-- The lines of a derivation: the start symbol and then its steps. -/
def derivationLines (form : Word → String) (start : Symbol) (steps : List Step) : List String :=
  start.toString :: steps.map (Step.text form)

/-- A derivation that was found is told line by line; one that was not found leaves a bare rejection,
with a note if the search gave up. -/
def Verdict.answer (form : Word → String) (start : Symbol) (gaveUp : Nat → Event) :
    Verdict (List Step) → Answer
  | .found steps => ⟨⟨true, some (.linear (derivationLines form start steps))⟩, []⟩
  | .exhausted => ⟨.rejected, []⟩
  | .gaveUp waiting => ⟨.rejected, [gaveUp waiting]⟩

/-- A verdict is answered with acceptance exactly if something was found. -/
theorem Verdict.accepted_answer {form : Word → String} {start : Symbol} {gaveUp : Nat → Event}
    {verdict : Verdict (List Step)} :
    (verdict.answer form start gaveUp).outcome.accepted = true ↔
      ∃ steps, verdict = .found steps := by
  cases verdict with
  | found steps => simp [answer]
  | exhausted => simp [answer, Outcome.rejected]
  | gaveUp waiting => simp [answer, Outcome.rejected]

end PhraseStructure
