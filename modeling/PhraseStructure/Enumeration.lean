import PhraseStructure.Budget
import PhraseStructure.Derivation
import PhraseStructure.Frontier
import PhraseStructure.Journal

/-!
# Enumerating words

The words of a language are listed by a breadth-first exploration of sentential forms.  In each form a
production replaces only the first occurrence of its left side, and forms that grow too long are dropped.
The exploration ends when enough words were found; they are then put in order, shorter words first and
words of one length by their code points.

## Main definitions

* `Word.precedes`: the order of the listing.
* `Grammar.firstSuccessors`: the forms one step away by first occurrences.
* `Grammar.enumerate`: the listing with the event that tells why it ended early.
-/

namespace PhraseStructure

/-- Is the first word at or before the second in the dictionary that orders symbols by their code points? -/
def Word.alphabetic : Word → Word → Bool
  | [], _ => true
  | _ :: _, [] => false
  | a :: v, b :: w => a.toNat < b.toNat || (a = b && alphabetic v w)

/-- Shorter words come first, words of one length by their code points. -/
def Word.precedes (v w : Word) : Bool :=
  v.length < w.length || (v.length = w.length && v.alphabetic w)

namespace Grammar

/-- The forms one step away when each production replaces the first occurrence of its left side. -/
def firstSuccessors (g : Grammar) (form : Word) : List Word :=
  g.productions.flatMap fun p =>
    match splits p.left form with
    | [] => []
    | (before, after) :: _ => p.alternatives.map fun r => before ++ r ++ after

/-- The exploration behind a listing of `n` words: what is left of the steps, and the words found. -/
def harvest (g : Grammar) (b : Budget) (n : Nat) : Nat × Array Word :=
  let (left, words, _) := Frontier.explore id
    (fun form => (g.firstSuccessors form).filter fun f => f.length ≤ b.enumerationLength)
    (fun words form => if g.vocabulary.allTerminal form then words.push form else words)
    (fun words => n ≤ words.size) b.enumerationSteps #[] (Frontier.singleton id [g.start])
  (left, words)

/-- At most `n` words of the language in order, with a note if there are fewer. -/
def enumerate (g : Grammar) (b : Budget) (n : Nat) : List Word × List Event :=
  let (left, words) := g.harvest b n
  let events :=
    if n ≤ words.size then []
    else if left = 0 then [Event.enumerationStopped b.enumerationSteps words.size n]
    else [Event.enumerationExhausted words.size]
  (words.toList.mergeSort Word.precedes, events)

end Grammar

end PhraseStructure
