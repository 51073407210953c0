import PhraseStructure.Alphabet
import PhraseStructure.Fault

/-!
# Vocabularies

The symbols of a grammar come in two disjoint alphabets: *nonterminals*, which rules replace, and
*terminals*, which words are made of.  A `Vocabulary` holds both together with what makes them usable:
there is at least one nonterminal, no symbol is on both sides, and the mark of the empty word is on
neither.

## Main definitions

* `Vocabulary`: the two alphabets and their laws.
* `Vocabulary.make`: the vocabulary of some declared symbols, or the first law that fails.
* `Vocabulary.check`: the first undeclared symbol of a word.
-/

namespace PhraseStructure

/-- The nonterminals and terminals of a grammar. -/
structure Vocabulary where
  /-- The symbols that rules replace. -/
  nonterminals : Alphabet
  /-- The symbols that words are made of. -/
  terminals : Alphabet
  /-- There is something to replace. -/
  nonempty : nonterminals.toList ≠ []
  /-- No symbol is on both sides. -/
  disjoint : ∀ c ∈ nonterminals, ¬ c ∈ terminals
  /-- The mark of the empty word is no nonterminal. -/
  mark_notMem_nonterminals : ¬ emptyMark ∈ nonterminals
  /-- The mark of the empty word is no terminal. -/
  mark_notMem_terminals : ¬ emptyMark ∈ terminals
deriving DecidableEq

namespace Vocabulary

/-- The vocabulary of the declared symbols.  A missing nonterminal is noticed before symbols declared
twice, and those before the reserved mark. -/
def make (nonterminals terminals : List Symbol) : Except VocabularyFault Vocabulary :=
  let N := Alphabet.ofList nonterminals
  let T := Alphabet.ofList terminals
  if nonempty : N.toList = [] then
    .error .noNonterminals
  else if disjoint : N.common T = [] then
    if reserved : emptyMark ∈ N ∨ emptyMark ∈ T then
      .error .reserved
    else
      .ok {
        nonterminals := N
        terminals := T
        nonempty
        disjoint := Alphabet.common_eq_nil_iff.1 disjoint
        mark_notMem_nonterminals := fun h => reserved (.inl h)
        mark_notMem_terminals := fun h => reserved (.inr h) }
  else
    .error (.shared (N.common T))

/-- Is the symbol one that rules replace? -/
def isNonterminal (v : Vocabulary) (c : Symbol) : Bool :=
  c ∈ v.nonterminals

/-- Is the symbol one that words are made of? -/
def isTerminal (v : Vocabulary) (c : Symbol) : Bool :=
  c ∈ v.terminals

/-- Is the symbol declared at all? -/
def isDeclared (v : Vocabulary) (c : Symbol) : Bool :=
  v.isTerminal c || v.isNonterminal c

/-- Does the word consist of terminals? -/
def allTerminal (v : Vocabulary) (w : Word) : Bool :=
  w.all v.isTerminal

/-- Succeeds on words over the vocabulary and points at the first undeclared symbol of any other. -/
def check (v : Vocabulary) (w : Word) : Except Fault Unit :=
  match w.find? fun c => !v.isDeclared c with
  | some c => .error (.undeclared c w)
  | none => .ok ()

@[simp]
theorem isNonterminal_iff {v : Vocabulary} {c : Symbol} :
    v.isNonterminal c = true ↔ c ∈ v.nonterminals := by
  simp [isNonterminal]

@[simp]
theorem isTerminal_iff {v : Vocabulary} {c : Symbol} :
    v.isTerminal c = true ↔ c ∈ v.terminals := by
  simp [isTerminal]

theorem check_eq_ok_iff {v : Vocabulary} {w : Word} :
    v.check w = .ok () ↔ ∀ c ∈ w, v.isDeclared c = true := by
  cases h : w.find? fun c => !v.isDeclared c with
  | none =>
    simp only [check, h, true_iff]
    simpa using h
  | some c =>
    simp only [check, h, reduceCtorEq, false_iff]
    have hc := List.find?_some h
    have hm := List.mem_of_find?_eq_some h
    intro hall
    simp [hall c hm] at hc

end Vocabulary

end PhraseStructure
