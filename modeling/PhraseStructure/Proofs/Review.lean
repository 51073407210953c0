import PhraseStructure.Proofs.Construction
import Mathlib.Data.List.Nodup

/-!
# A review finds what construction stumbles over

Construction stops at the first fault; a review goes on and collects them all.  The two look at different
things in a different order.  Construction checks symbols of the merged productions, after every name and
every rule could be read; a review checks the words as they were written, drops the names that spell no
symbol, and reads on past broken rules.  Still they agree: a review is empty exactly if construction succeeds,
and otherwise it holds the fault at which construction stopped, except that an undeclared symbol may have been
seen in another word.

What a review lists is said once, part by part (`Description.mem_review`).  Whatever cannot be read is among
it (`Description.Unreadable.mem_review`), and once everything can be read, the vocabularies of the two are
the same and so are the symbols they miss.

## Main definitions

* `Fault.Matches`: two faults report the same problem.
* `Fault.undeclaredSymbol?`: the symbol that a fault reports as undeclared.

## Main results

* `Description.mem_review`: what a review lists.
* `Description.exists_mem_review_of_build`: it lists the fault at which construction stops.
* `Description.filterMap_review`: it lists the undeclared symbols once each.
* `Description.review_agrees_with_build`: review and construction agree.
-/

namespace PhraseStructure

/-- Two faults report the same problem.  An undeclared symbol may be reported from different words. -/
inductive Fault.Matches : Fault → Fault → Prop where
  | refl (fault : Fault) : Matches fault fault
  | undeclared (c : Symbol) (w w' : Word) : Matches (.undeclared c w) (.undeclared c w')

/-- The symbol that a fault reports as undeclared. -/
def Fault.undeclaredSymbol? : Fault → Option Symbol
  | .undeclared c _ => some c
  | _ => none

theorem Fault.undeclaredSymbol?_eq_some_iff {fault : Fault} {c : Symbol} :
    fault.undeclaredSymbol? = some c ↔ ∃ w, fault = .undeclared c w := by
  cases fault with
  | undeclared c' w => simp [undeclaredSymbol?]
  | _ => simp [undeclaredSymbol?]

/-- Dropping entries whose first part was seen before keeps first appearances of first parts. -/
theorem map_fst_eraseDupsBy {α β : Type} [BEq α] (uses : List (α × β)) :
    (uses.eraseDupsBy fun a b => a.1 == b.1).map Prod.fst = (uses.map Prod.fst).eraseDups := by
  match uses with
  | [] => rfl
  | use :: uses =>
    rw [List.eraseDupsBy_cons, List.map_cons, map_fst_eraseDupsBy, List.map_cons, List.eraseDups_cons,
      List.filter_map]
    congr 4
    funext entry
    simp
termination_by uses.length
decreasing_by exact Nat.lt_succ_of_le (List.length_filter_le _ _)

namespace Description

variable {d : Description} {v : Vocabulary} {fault : Fault} {c : Symbol} {w : Word}
  {ns ts : List Symbol} {ps : List Production} {start : Symbol}

/-! ## Words -/

theorem mem_words : w ∈ d.words ↔ ∃ rule ∈ d.rules, w ∈ rule.1 :: rule.2 := by
  simp only [words, rules, List.mem_flatMap, List.map_cons, List.mem_map, exists_exists_and_eq_and]

/-- The words of the merged productions are the words that were written. -/
theorem Read.mem_sides_iff (h : d.Read ns ts ps start) : (∃ p ∈ merge ps, w ∈ p.sides) ↔ w ∈ d.words := by
  have hlefts : (∃ p ∈ merge ps, p.left = w) ↔ ∃ rule ∈ d.rules, rule.1 = w := by
    rw [← List.mem_map, h.lefts, List.mem_eraseDups, List.mem_map]
  have halternatives : (∃ p ∈ merge ps, w ∈ p.alternatives) ↔ ∃ rule ∈ d.rules, w ∈ rule.2 := by
    constructor
    · rintro ⟨p, hp, hw⟩
      obtain ⟨rule, hrule, -, hw⟩ := h.mem_alternatives_iff.mp ⟨p, hp, rfl, hw⟩
      exact ⟨rule, hrule, hw⟩
    · rintro ⟨rule, hrule, hw⟩
      obtain ⟨p, hp, -, hw⟩ := h.mem_alternatives_iff.mpr ⟨rule, hrule, rfl, hw⟩
      exact ⟨p, hp, hw⟩
  simp only [mem_words, Production.sides_eq, List.mem_cons, and_or_left, exists_or, eq_comm (a := w),
    hlefts, halternatives]

/-- The undeclared symbols of a description, each where it appeared first. -/
theorem filterMap_undeclared (d : Description) (v : Vocabulary) :
    (d.undeclared v).filterMap Fault.undeclaredSymbol? =
      (d.words.flatMap fun w => w.filter fun c => !v.isDeclared c).eraseDups := by
  rw [undeclared, List.filterMap_map]
  -- Every entry becomes a fault with its symbol, so that the symbol is what comes back.
  change List.filterMap (some ∘ Prod.fst) _ = _
  rw [List.filterMap_eq_map, map_fst_eraseDupsBy, List.map_flatMap]
  simp only [List.map_map]
  congr 2
  funext w
  exact List.map_id _

theorem exists_mem_undeclared_iff :
    (∃ w, .undeclared c w ∈ d.undeclared v) ↔ v.isDeclared c = false ∧ ∃ w ∈ d.words, c ∈ w := by
  have hmem : (∃ w, .undeclared c w ∈ d.undeclared v) ↔
      c ∈ (d.undeclared v).filterMap Fault.undeclaredSymbol? := by
    simp only [List.mem_filterMap, Fault.undeclaredSymbol?_eq_some_iff]
    constructor
    · rintro ⟨w, hw⟩
      exact ⟨_, hw, w, rfl⟩
    · rintro ⟨_, hw, w, rfl⟩
      exact ⟨w, hw⟩
  rw [hmem, filterMap_undeclared, List.mem_eraseDups]
  simp only [List.mem_flatMap, List.mem_filter, Bool.not_eq_true']
  constructor
  · rintro ⟨w, hw, hc, hundeclared⟩
    exact ⟨hundeclared, w, hw, hc⟩
  · rintro ⟨hundeclared, w, hw, hc⟩
    exact ⟨w, hw, hc, hundeclared⟩

theorem exists_eq_of_mem_undeclared (h : fault ∈ d.undeclared v) : ∃ c w, fault = .undeclared c w := by
  obtain ⟨⟨c, w⟩, -, rfl⟩ := List.mem_map.mp h
  exact ⟨c, w, rfl⟩

/-! ## What a review finds -/

theorem mem_unspelled {names : List String} :
    fault ∈ unspelled names ↔ ∃ name ∈ names, symbolOf? name = none ∧ fault = .notOneSymbol name := by
  simp only [unspelled, List.mem_map, List.mem_filter, Option.isNone_iff_eq_none, and_assoc,
    eq_comm (a := fault)]

theorem mem_brokenRules :
    fault ∈ d.brokenRules ↔ ∃ rule ∈ d.productions, Production.ofText rule.1 rule.2 = .error fault := by
  rw [brokenRules, List.mem_filterMap]
  refine exists_congr fun rule => and_congr_right fun _ => ?_
  cases hrule : Production.ofText rule.1 rule.2 with
  | error fault' => simp [hrule]
  | ok p => simp [hrule]

/-- **What a review finds**: names that spell no symbol, broken rules, symbols that are no vocabulary, a start
symbol that is no nonterminal of a vocabulary, and undeclared symbols if there is a vocabulary. -/
theorem mem_review : fault ∈ d.review ↔
    fault ∈ unspelled (d.nonterminals ++ d.terminals) ∨ fault ∈ d.brokenRules ∨
      (∃ f, d.vocabulary = .error f ∧ fault = .vocabulary f) ∨
      ((∀ v, d.vocabulary = .ok v → d.startDeclared v = false) ∧ fault = .start d.start) ∨
      ∃ v, d.vocabulary = .ok v ∧ fault ∈ d.undeclared v := by
  have hnames : fault ∈ unspelled d.nonterminals ∨ fault ∈ unspelled d.terminals ↔
      fault ∈ unspelled (d.nonterminals ++ d.terminals) := by
    rw [← List.mem_append, unspelled, unspelled, unspelled, List.filter_append, List.map_append]
  rw [review, List.mem_append, List.mem_append, hnames]
  cases hv : d.vocabulary with
  | error f =>
    simp only [List.mem_cons]
    grind
  | ok v =>
    simp only [List.mem_append]
    cases hstart : d.startDeclared v with
    | true => simp [hstart]
    | false =>
      simp [hstart]
      grind

theorem startDeclared_iff :
    d.startDeclared v = true ↔ ∃ c ∈ v.nonterminals, d.start = String.singleton c := by
  rw [startDeclared, Option.any_eq_true]
  simp only [symbolOf?_eq_some_iff, Vocabulary.isNonterminal_iff]
  exact exists_congr fun c => and_comm

/-- Whatever cannot be read is found by a review. -/
theorem Unreadable.mem_review (h : d.Unreadable fault) : fault ∈ d.review := by
  rw [Description.mem_review]
  cases h with
  | @name name hname hnone => exact Or.inl (mem_unspelled.mpr ⟨name, hname, hnone, rfl⟩)
  | @rule rule _ hrule hfault => exact Or.inr (Or.inl (mem_brokenRules.mpr ⟨rule, hrule, hfault⟩))
  | start hnone =>
    refine Or.inr (Or.inr (Or.inr (Or.inl ⟨?_, rfl⟩)))
    intro v _
    rw [startDeclared, hnone, Option.any_none]

/-- If every name spells a symbol, a review and construction have the same vocabulary. -/
theorem Read.vocabulary_eq (h : d.Read ns ts ps start) : d.vocabulary = Vocabulary.make ns ts := by
  have hnames : ∀ cs : List Symbol, (cs.map String.singleton).filterMap symbolOf? = cs := by
    intro cs
    rw [List.filterMap_map, show symbolOf? ∘ String.singleton = some from funext symbolOf?_singleton,
      List.filterMap_some]
  rw [Description.vocabulary, h.nonterminals, h.terminals, hnames, hnames]

/-! ## Agreement -/

/-- **A review finds what construction stumbles over.** -/
theorem exists_mem_review_of_build (h : d.build = .error fault) :
    ∃ fault' ∈ d.review, fault.Matches fault' := by
  rcases d.build_cases with ⟨fault', hunreadable, hfault⟩ | ⟨ns, ts, ps, start, hread, hassemble⟩
  · rw [h] at hfault
    cases hfault
    exact ⟨fault, hunreadable.mem_review, .refl fault⟩
  rcases Grammar.assemble_cases ns ts ps start with ⟨fault', hunfit, hfault⟩ | ⟨g, hok, -⟩
  · rw [← hassemble, h] at hfault
    cases hfault
    cases hunfit with
    | @vocabulary f hmake =>
      refine ⟨_, ?_, .refl _⟩
      rw [mem_review, hread.vocabulary_eq]
      exact Or.inr (Or.inr (Or.inl ⟨f, hmake, rfl⟩))
    | @start v hmake hstart =>
      refine ⟨_, ?_, .refl _⟩
      rw [mem_review, hread.vocabulary_eq, hread.start_eq]
      refine Or.inr (Or.inr (Or.inr (Or.inl ⟨?_, rfl⟩)))
      intro v' hv'
      rw [hmake] at hv'
      cases hv'
      rw [← Bool.not_eq_true, startDeclared_iff, hread.start_eq]
      rintro ⟨c, hc, hname⟩
      rw [String.singleton_inj] at hname
      exact hstart (hname ▸ hc)
    | @undeclared v p w c hmake hp hw hc hundeclared =>
      -- The word is one of those written, so that a review has seen the symbol there or before.
      have hwords : w ∈ d.words := hread.mem_sides_iff.mp ⟨p, hp, hw⟩
      obtain ⟨w', hw'⟩ := exists_mem_undeclared_iff.mpr ⟨hundeclared, w, hwords, hc⟩
      refine ⟨_, ?_, .undeclared c w w'⟩
      rw [mem_review, hread.vocabulary_eq]
      exact Or.inr (Or.inr (Or.inr (Or.inr ⟨v, hmake, hw'⟩)))
  · rw [← hassemble, h] at hok
    cases hok

/-- Nothing that could be read is found to be unreadable. -/
theorem Read.not_unreadable (h : d.Read ns ts ps start) : ¬ d.Unreadable fault := by
  intro hunreadable
  cases hunreadable with
  | @name name hname hnone =>
    rw [h.nonterminals, h.terminals, ← List.map_append] at hname
    obtain ⟨c, -, rfl⟩ := List.mem_map.mp hname
    rw [symbolOf?_singleton] at hnone
    cases hnone
  | start hnone =>
    rw [h.start_eq, symbolOf?_singleton] at hnone
    cases hnone
  | @rule rule _ hrule hfault =>
    obtain ⟨-, -, -, hall⟩ := h
    generalize d.productions = written at hall hrule
    induction hall with
    | nil => cases hrule
    | cons hok _ ih =>
      rcases List.mem_cons.mp hrule with rfl | hrule
      · rw [hok] at hfault
        cases hfault
      · exact ih hrule

/-- **Where construction succeeds there is nothing to find.** -/
theorem review_eq_nil_of_build {g : Grammar} (h : d.build = .ok g) : d.review = [] := by
  obtain ⟨ns, ts, ps, hread, hmake, hmerge⟩ := of_build_eq_ok h
  have hvocabulary : d.vocabulary = .ok g.vocabulary := hread.vocabulary_eq.trans hmake
  rw [List.eq_nil_iff_forall_not_mem]
  intro fault hfault
  rcases mem_review.mp hfault with hname | hrule | ⟨f, hf, -⟩ | ⟨hstart, -⟩ | ⟨v, hv, hundeclared⟩
  · obtain ⟨name, hmem, hnone, rfl⟩ := mem_unspelled.mp hname
    exact hread.not_unreadable (.name hmem hnone)
  · obtain ⟨rule, hrule, hbroken⟩ := mem_brokenRules.mp hrule
    exact hread.not_unreadable (.rule hrule hbroken)
  · rw [hvocabulary] at hf
    cases hf
  · have hdeclared : d.startDeclared g.vocabulary = true :=
      startDeclared_iff.mpr ⟨g.start, g.start_mem, hread.start_eq⟩
    rw [hstart _ hvocabulary] at hdeclared
    cases hdeclared
  · rw [hvocabulary] at hv
    cases hv
    obtain ⟨c, w, rfl⟩ := exists_eq_of_mem_undeclared hundeclared
    obtain ⟨hc, w', hw', hmem⟩ := exists_mem_undeclared_iff.mp ⟨w, hundeclared⟩
    -- The word stands in some production of the grammar, where every symbol is declared.
    obtain ⟨p, hp, hside⟩ := hread.mem_sides_iff.mpr hw'
    rw [g.declared p (hmerge ▸ hp) w' hside c hmem] at hc
    cases hc

/-- **Undeclared symbols are listed once each**, in the order of their first appearance. -/
theorem filterMap_review (hv : d.vocabulary = .ok v) :
    d.review.filterMap Fault.undeclaredSymbol? =
      (d.words.flatMap fun w => w.filter fun c => !v.isDeclared c).eraseDups := by
  have hunspelled : ∀ names, (unspelled names).filterMap Fault.undeclaredSymbol? = [] := by
    intro names
    rw [List.filterMap_eq_nil_iff]
    intro fault hfault
    obtain ⟨name, -, -, rfl⟩ := mem_unspelled.mp hfault
    rfl
  have hbroken : d.brokenRules.filterMap Fault.undeclaredSymbol? = [] := by
    rw [List.filterMap_eq_nil_iff]
    intro fault hfault
    obtain ⟨rule, -, hrule⟩ := mem_brokenRules.mp hfault
    rcases Production.of_ofText_eq_error hrule with rfl | rfl
    · rfl
    · rfl
  have hstart : (if d.startDeclared v then [] else [Fault.start d.start]).filterMap
      Fault.undeclaredSymbol? = [] := by
    split
    · rfl
    · rfl
  simp only [review, hv, List.filterMap_append, hunspelled, hbroken, hstart, List.nil_append]
  exact filterMap_undeclared d v

theorem problems_eq_none_iff : d.problems = none ↔ d.review = [] := by
  unfold problems
  split
  · next hnil => simp [hnil]
  · next hne => simpa using hne

/-- **A review and construction agree.**  A review has nothing to report exactly if construction succeeds.
Where construction fails, the review lists its fault, though perhaps with another word around an undeclared
symbol.  And if the names that spell symbols form a vocabulary, the review lists every symbol of the rules
that is not declared, and each of them once. -/
theorem review_agrees_with_build (d : Description) :
    (d.problems = none ↔ ∃ g, d.build = .ok g) ∧ (d.review = [] ↔ ∃ g, d.build = .ok g) ∧
    (∀ fault, d.build = .error fault → ∃ fault' ∈ d.review, fault.Matches fault') ∧
    (∀ v, Vocabulary.make (d.nonterminals.filterMap symbolOf?) (d.terminals.filterMap symbolOf?) = .ok v →
      (d.review.filterMap Fault.undeclaredSymbol?).Nodup ∧
      ∀ c, c ∈ d.review.filterMap Fault.undeclaredSymbol? ↔ v.isDeclared c = false ∧
        ∃ rule ∈ d.productions, ∃ text ∈ rule.1 :: rule.2, c ∈ Word.read text) := by
  have hagree : d.review = [] ↔ ∃ g, d.build = .ok g := by
    constructor
    · intro hnil
      cases hbuild : d.build with
      | ok g => exact ⟨g, rfl⟩
      | error fault =>
        obtain ⟨fault', hfault', -⟩ := exists_mem_review_of_build hbuild
        rw [hnil] at hfault'
        cases hfault'
    · rintro ⟨g, hbuild⟩
      exact review_eq_nil_of_build hbuild
  refine ⟨problems_eq_none_iff.trans hagree, hagree, fun fault => exists_mem_review_of_build, ?_⟩
  intro v hv
  rw [filterMap_review hv]
  refine ⟨nodup_eraseDups _, ?_⟩
  intro c
  rw [List.mem_eraseDups]
  simp only [words, List.mem_flatMap, List.mem_map, List.mem_filter, Bool.not_eq_true']
  constructor
  · rintro ⟨_, ⟨rule, hrule, text, htext, rfl⟩, hc, hundeclared⟩
    exact ⟨hundeclared, rule, hrule, text, htext, hc⟩
  · rintro ⟨hundeclared, rule, hrule, text, htext, hc⟩
    exact ⟨_, ⟨rule, hrule, text, htext, rfl⟩, hc, hundeclared⟩

/-- A description with a fault of every kind but one: construction stops at the name of two characters. -/
def faulty : Description where
  nonterminals := ["S", "ab"]
  terminals := ["a"]
  productions := [("S", ["aXb", "ε", "bX"]), ("A", []), ("", ["a"])]
  start := "Q"

theorem review_agrees_with_build_faulty :
    faulty.build = .error (.notOneSymbol "ab") ∧ .notOneSymbol "ab" ∈ faulty.review ∧
    faulty.problems ≠ none ∧
    ∃ v, faulty.vocabulary = .ok v ∧ 'X' ∈ faulty.review.filterMap Fault.undeclaredSymbol? ∧
      (faulty.review.filterMap Fault.undeclaredSymbol?).count 'X' = 1 := by
  obtain ⟨hproblems, -, hfault, hundeclared⟩ := review_agrees_with_build faulty
  have hbuild : faulty.build = .error (.notOneSymbol "ab") := by rfl
  obtain ⟨fault', hmem, hmatches⟩ := hfault _ hbuild
  cases hmatches
  obtain ⟨v, hv⟩ : ∃ v, faulty.vocabulary = .ok v := ⟨_, rfl⟩
  obtain ⟨hnodup, hiff⟩ := hundeclared v hv
  obtain ⟨hnonterminals, hterminals⟩ := Vocabulary.of_make_eq_ok hv
  have hX : v.isDeclared 'X' = false := by
    rw [Vocabulary.isDeclared, Vocabulary.isTerminal, Vocabulary.isNonterminal, hnonterminals, hterminals]
    decide
  have hlisted := (hiff 'X').mpr ⟨hX, _, List.mem_cons_self, "aXb", by simp, by decide⟩
  refine ⟨hbuild, hmem, ?_, v, hv, hlisted, List.count_eq_one_of_mem hnodup hlisted⟩
  intro hnone
  obtain ⟨g, hg⟩ := hproblems.mp hnone
  rw [hbuild] at hg
  cases hg

end Description

end PhraseStructure
