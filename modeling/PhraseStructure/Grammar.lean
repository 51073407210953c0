import PhraseStructure.Hierarchy

/-!
# Grammars

A `Grammar` is a vocabulary, a list of productions over it with pairwise different left sides, and a
start symbol among the nonterminals.  These laws are part of the type, so that every function on
grammars may rely on them.  The level and the direction of a grammar are computed from its productions
and cannot disagree with them.

The alternatives of a `Grammar` are words, as they come from text, and the empty word among them is the
mark.  Parsing and enumeration are about such grammars.  A program can also put a grammar together from
productions that it composed by hand; a `Grammar Alternative` is assembled, classified, shown and rewritten
in the same way, and it keeps apart the mark and an alternative that is spelled with no symbols.

## Main definitions

* `Grammar`: the type.
* `Grammar.assemble`, `Grammar.ofRules`: a grammar from its parts, or the first fault.
* `Grammar.level`, `Grammar.direction`: its place in the hierarchy.
* `Grammar.alternatives`: what may replace a single symbol.
* `Grammar.describe`: a summary for the reader.
-/

namespace PhraseStructure

/-- A vocabulary, productions over it, and a start symbol.  Alternatives are words unless said otherwise. -/
structure Grammar (α : Type := Word) [Spelling α] where
  /-- The declared symbols. -/
  vocabulary : Vocabulary
  /-- The productions, one per left side. -/
  productions : List (Production α)
  /-- Where derivations begin. -/
  start : Symbol
  /-- Derivations begin with a nonterminal. -/
  start_mem : start ∈ vocabulary.nonterminals
  /-- No two productions share a left side. -/
  nodup_left : (productions.map (·.left)).Nodup
  /-- Productions use declared symbols only. -/
  declared : ∀ p ∈ productions, ∀ w ∈ p.sides, ∀ c ∈ w, vocabulary.isDeclared c = true
deriving DecidableEq

theorem forM_eq_ok_iff {ε α : Type} {f : α → Except ε Unit} {xs : List α} :
    xs.forM f = .ok () ↔ ∀ x ∈ xs, f x = .ok () := by
  induction xs with
  | nil => simp [pure, Except.pure]
  | cons x xs ih =>
    rw [List.forM, List.forall_mem_cons, ← ih]
    cases h : f x with
    | error e => simp [bind, Except.bind]
    | ok u => simp [bind, Except.bind]

theorem Production.check_eq_ok_iff {α : Type} [Spelling α] {v : Vocabulary} {p : Production α} :
    p.check v = .ok () ↔ ∀ w ∈ p.sides, ∀ c ∈ w, v.isDeclared c = true := by
  simp only [check, forM_eq_ok_iff, Vocabulary.check_eq_ok_iff]

namespace Grammar

/-- The grammar with the given symbols, productions and start.  The vocabulary is checked first, then
the start symbol, then the symbols of the productions in order. -/
def assemble {α : Type} [DecidableEq α] [Spelling α] (nonterminals terminals : List Symbol)
    (productions : List (Production α)) (start : Symbol) : Except Fault (Grammar α) :=
  match Vocabulary.make nonterminals terminals with
  | .error fault => .error (.vocabulary fault)
  | .ok vocabulary =>
    if start_mem : start ∈ vocabulary.nonterminals then
      match checked : (merge productions).forM (·.check vocabulary) with
      | .error fault => .error fault
      | .ok () =>
        .ok {
          vocabulary
          productions := merge productions
          start
          start_mem
          nodup_left := nodup_left_merge productions
          declared := fun p hp => Production.check_eq_ok_iff.1 (forM_eq_ok_iff.1 checked p hp) }
    else
      .error (.start start.toString)

/-- The grammar of some written rules; every character of the two texts is one symbol. -/
def ofRules (nonterminals terminals : String) (rules : List (String × List String))
    (start : Symbol) : Except Fault Grammar := do
  let productions ← rules.mapM fun (left, alternatives) => Production.ofText left alternatives
  assemble nonterminals.toList terminals.toList productions start

/-- The level of a grammar in the hierarchy. -/
def level {α : Type} [Spelling α] (g : Grammar α) : Level :=
  levelOf g.vocabulary g.productions g.start

/-- The direction of a regular grammar; grammars of other levels have none. -/
def direction {α : Type} [Spelling α] (g : Grammar α) : Option Direction :=
  if g.level = .regular then directionOf g.vocabulary g.productions else none

/-- What may replace a symbol that stands for itself: the alternatives of the production whose left
side is exactly that symbol. -/
def alternatives {α : Type} [Spelling α] (g : Grammar α) (c : Symbol) : List α :=
  (g.productions.filter fun p => p.singleLeft = some c).flatMap (·.alternatives)

/-- A summary of the grammar, line by line. -/
def describe {α : Type} [Spelling α] (g : Grammar α) : String :=
  "\n".intercalate (
    [g.level.text] ++
    (g.direction.map fun d => "Style: " ++ d.text).toList ++
    ["Nonterminals (N): " ++ commaSeparated g.vocabulary.nonterminals.toList,
      "Terminals (T): " ++ commaSeparated g.vocabulary.terminals.toList,
      "Start symbol (S): " ++ g.start.toString,
      "Productions (P):"] ++
    g.productions.map fun p => "  " ++ p.text)

end Grammar

end PhraseStructure
