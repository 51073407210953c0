import PhraseStructure.Derivation
import PhraseStructure.Recognition.Chart
import Mathlib.Algebra.BigOperators.Group.List.Basic
import Mathlib.Algebra.BigOperators.Intervals
import Mathlib.Algebra.Group.Action.Defs
import Mathlib.Data.Finset.Card
import Mathlib.Logic.Relation

/-!
# Derivations and levels

The language of a grammar consists of the words of terminals that its start symbol derives.  This
module collects what derivations do to forms: they may be put end to end and into a context, they
never leave the vocabulary, and at the levels of the hierarchy they obey the shape of the rules.  None of
this depends on how alternatives are given, only on what they spell.

At level 1 the rules never shorten a form, with one exception: the lone start symbol may be erased.
That exception is harmless because a start symbol that may be erased never comes back, so that it is
seen in the very first form only (`eq_start_or_start_notMem`).  Hence no form on the way to a word is
longer than the word, or than the start symbol if the word is empty (`length_le_of_derives`).

## Main definitions

* `Grammar.Generates`: membership in the language of a grammar.
* `Grammar.ErasesStart`: the start symbol may give way to the mark of the empty word.
* `Vocabulary.symbols`: all declared symbols.
* `wordsUpTo`: the words of bounded length over some symbols.

## Main results

* `Grammar.length_le_of_derives`: at level 1 no form outgrows the word it leads to.
* `Grammar.isLinear_direction`: at level 3 the direction of a grammar fits all its productions.
* `length_wordsUpTo`: how many words of bounded length there are.
-/

namespace PhraseStructure

namespace Grammar

variable {α : Type} [Spelling α] {g : Grammar α} {f f' f'' w : Word} {c : Symbol} {r : α}

/-- A word belongs to the language of a grammar: it consists of terminals, and the start symbol
derives it. -/
def Generates (g : Grammar) (w : Word) : Prop :=
  (∀ c ∈ w, c ∈ g.vocabulary.terminals) ∧ g.Derives [g.start] w

/-! ## Putting derivations together -/

theorem derives_iff_reflTransGen : g.Derives f f' ↔ Relation.ReflTransGen g.Step f f' := by
  constructor
  · intro h
    induction h with
    | refl => exact .refl
    | tail _ hstep ih => exact ih.tail hstep
  · intro h
    induction h with
    | refl => exact .refl
    | tail _ hstep ih => exact ih.tail hstep

theorem Derives.trans (h : g.Derives f f') (h' : g.Derives f' f'') : g.Derives f f'' := by
  rw [derives_iff_reflTransGen] at h h' ⊢
  exact h.trans h'

theorem Derives.head (h : g.Step f f') (h' : g.Derives f' f'') : g.Derives f f'' := by
  rw [derives_iff_reflTransGen] at h' ⊢
  exact h'.head h

theorem Step.context (h : g.Step f f') (u v : Word) : g.Step (u ++ f ++ v) (u ++ f' ++ v) := by
  obtain ⟨p, hp, r, hr, u', v', rfl, rfl⟩ := h
  exact ⟨p, hp, r, hr, u ++ u', v' ++ v, by simp, by simp⟩

theorem Derives.context (h : g.Derives f f') (u v : Word) :
    g.Derives (u ++ f ++ v) (u ++ f' ++ v) := by
  induction h with
  | refl => exact .refl
  | tail _ hstep ih => exact ih.tail (hstep.context u v)

/-! ## Rules for single symbols -/

theorem mem_alternatives :
    r ∈ g.alternatives c ↔ ∃ p ∈ g.productions, p.left = [c] ∧ r ∈ p.alternatives := by
  simp only [alternatives, List.mem_flatMap, List.mem_filter, decide_eq_true_eq,
    Production.singleLeft_eq_some_iff, and_assoc]

section Words

variable {g : Grammar} {r : Word}

theorem mem_rules {rule : Rule} : rule ∈ g.rules ↔ rule.right ∈ g.alternatives rule.left := by
  rw [mem_alternatives, rules, List.mem_flatMap]
  refine exists_congr fun p => and_congr_right fun _ => ?_
  obtain ⟨left, right⟩ := rule
  cases hleft : p.singleLeft with
  | none =>
    have hne : p.left ≠ [left] := by
      intro h
      rw [Production.singleLeft_eq_some_iff.mpr h] at hleft
      cases hleft
    simp [hne]
  | some c =>
    rw [Production.singleLeft_eq_some_iff] at hleft
    simp only [List.mem_map, Rule.mk.injEq, hleft, List.cons.injEq, and_true]
    constructor
    · rintro ⟨r, hr, rfl, rfl⟩
      exact ⟨rfl, hr⟩
    · rintro ⟨rfl, hr⟩
      exact ⟨right, hr, rfl, rfl⟩

theorem step_of_mem_alternatives (h : r ∈ g.alternatives c) (u v : Word) :
    g.Step (u ++ [c] ++ v) (u ++ r ++ v) := by
  obtain ⟨p, hp, hleft, hr⟩ := mem_alternatives.mp h
  exact ⟨p, hp, r, hr, u, v, by rw [hleft], rfl⟩

end Words

/-! ## Derivations stay inside the vocabulary -/

theorem isDeclared_iff : g.vocabulary.isDeclared c = true ↔
    c ∈ g.vocabulary.terminals ∨ c ∈ g.vocabulary.nonterminals := by
  simp [Vocabulary.isDeclared]

theorem isDeclared_of_mem_alternatives {p : Production α} (hp : p ∈ g.productions)
    (hr : r ∈ p.alternatives) (hc : c ∈ Spelling.word r) : g.vocabulary.isDeclared c = true :=
  g.declared p hp _ (List.mem_cons_of_mem _ (List.mem_map_of_mem hr)) c hc

theorem Step.isDeclared (h : g.Step f f') (hf : ∀ c ∈ f, g.vocabulary.isDeclared c = true) :
    ∀ c ∈ f', g.vocabulary.isDeclared c = true := by
  obtain ⟨p, hp, r, hr, u, v, rfl, rfl⟩ := h
  intro c hc
  rcases List.mem_append.mp hc with hc | hc
  · rcases List.mem_append.mp hc with hc | hc
    · exact hf c (by simp [hc])
    · exact isDeclared_of_mem_alternatives hp hr hc
  · exact hf c (by simp [hc])

theorem isDeclared_of_derives_start (h : g.Derives [g.start] f) :
    ∀ c ∈ f, g.vocabulary.isDeclared c = true := by
  induction h with
  | refl =>
    intro c hc
    rw [List.mem_singleton.mp hc]
    exact isDeclared_iff.mpr (Or.inr g.start_mem)
  | tail _ hstep ih => exact hstep.isDeclared ih

/-! ## What a level says -/

/-- A level says that the conditions of the higher levels fail and that its own hold. -/
theorem level_spec (g : Grammar α) :
    match g.level with
    | .regular => PhraseStructure.isRegular g.vocabulary g.productions = true
    | .contextFree => PhraseStructure.isRegular g.vocabulary g.productions = false ∧
        PhraseStructure.isContextFree g.vocabulary g.productions = true
    | .contextSensitive => PhraseStructure.isContextFree g.vocabulary g.productions = false ∧
        isContextSensitive g.start g.productions = true
    | .unrestricted => PhraseStructure.isContextFree g.vocabulary g.productions = false ∧
        isContextSensitive g.start g.productions = false := by
  unfold level levelOf
  by_cases hregular : PhraseStructure.isRegular g.vocabulary g.productions = true
  · simp [hregular]
  · by_cases hfree : PhraseStructure.isContextFree g.vocabulary g.productions = true
    · simp [hregular, hfree]
    · by_cases hsensitive : isContextSensitive g.start g.productions = true
      · simp [hregular, hfree, hsensitive]
      · simp [hregular, hfree, hsensitive]

theorem isContextSensitive_of_level (h : g.level = .contextSensitive) :
    isContextSensitive g.start g.productions = true := by
  have hspec := g.level_spec
  rw [h] at hspec
  exact hspec.2

theorem isRegular_of_level (h : g.level = .regular) :
    PhraseStructure.isRegular g.vocabulary g.productions = true := by
  have hspec := g.level_spec
  rw [h] at hspec
  exact hspec

theorem isLinear_iff {v : Vocabulary} {d : Direction} {ps : List (Production α)} :
    ps.all (·.isLinear v d) = true ↔
      ps.all (·.isContextFree v) = true ∧ ∀ r ∈ allAlternatives ps, v.isLinear d r = true := by
  simp only [List.all_eq_true, Production.isLinear, Bool.and_eq_true, allAlternatives,
    List.mem_flatMap]
  constructor
  · intro h
    refine ⟨fun p hp => (h p hp).1, ?_⟩
    rintro r ⟨p, hp, hr⟩
    exact (h p hp).2 r hr
  · rintro ⟨hfree, hall⟩ p hp
    exact ⟨hfree p hp, fun r hr => hall r ⟨p, hp, hr⟩⟩

/-- At level 3 some direction fits all alternatives, and all left sides are single nonterminals. -/
theorem exists_isLinear_of_level (h : g.level = .regular) :
    ∃ d, g.productions.all (·.isContextFree g.vocabulary) = true ∧
      ∀ r ∈ allAlternatives g.productions, g.vocabulary.isLinear d r = true := by
  have hlinear := (Bool.and_eq_true_iff.mp (isRegular_of_level h)).1
  rcases Bool.or_eq_true_iff.mp hlinear with hright | hleft
  · exact ⟨.right, isLinear_iff.mp hright⟩
  · exact ⟨.left, isLinear_iff.mp hleft⟩

theorem isContextFree_of_level (h : g.level = .contextFree ∨ g.level = .regular) :
    PhraseStructure.isContextFree g.vocabulary g.productions = true := by
  rcases h with h | h
  · have hspec := g.level_spec
    rw [h] at hspec
    exact hspec.2
  · obtain ⟨-, hfree, -⟩ := exists_isLinear_of_level h
    exact hfree

/-! ## Level 1: forms do not shrink -/

/-- The start symbol may be erased: the mark of the empty word is one of its alternatives. -/
def ErasesStart (g : Grammar α) : Prop :=
  ∃ p ∈ g.productions, p.left = [g.start] ∧ p.erases = true

theorem left_eq_start_of_isMark (hlevel : g.level = .contextSensitive) {p : Production α}
    (hp : p ∈ g.productions) (hr : r ∈ p.alternatives) (hmark : Spelling.isMark r = true) :
    p.left = [g.start] := by
  have hmonotone := (Bool.and_eq_true_iff.mp (isContextSensitive_of_level hlevel)).1
  have := List.all_eq_true.mp (List.all_eq_true.mp hmonotone p hp) r hr
  simpa [hmark] using this

/-- Only the mark may be shorter than a left side. -/
theorem left_length_le (hlevel : g.level = .contextSensitive) {p : Production α}
    (hp : p ∈ g.productions) (hr : r ∈ p.alternatives) (hmark : Spelling.isMark r = false) :
    p.left.length ≤ (Spelling.word r).length := by
  have hmonotone := (Bool.and_eq_true_iff.mp (isContextSensitive_of_level hlevel)).1
  have := List.all_eq_true.mp (List.all_eq_true.mp hmonotone p hp) r hr
  simpa [hmark] using this

/-- A start symbol that may be erased occurs in no alternative. -/
theorem start_notMem_alternative (hlevel : g.level = .contextSensitive) (herases : g.ErasesStart)
    {p : Production α} (hp : p ∈ g.productions) (hr : r ∈ p.alternatives) :
    g.start ∉ Spelling.word r := by
  have hisolated := (Bool.and_eq_true_iff.mp (isContextSensitive_of_level hlevel)).2
  obtain ⟨q, hq, hleft, hmark⟩ := herases
  rw [startIsolated, Bool.or_eq_true_iff] at hisolated
  rcases hisolated with hno | hall
  · have hyes : g.productions.any (fun p => p.left = [g.start] && p.erases) = true := by
      refine List.any_eq_true.mpr ⟨q, hq, ?_⟩
      simp [hleft, hmark]
    rw [hyes] at hno
    cases hno
  · have := List.all_eq_true.mp hall r (List.mem_flatMap.mpr ⟨p, hp, hr⟩)
    simpa using this

/-- A start symbol that may be erased is seen in the first form only. -/
theorem eq_start_or_start_notMem (hlevel : g.level = .contextSensitive)
    (h : g.Derives [g.start] f) :
    f = [g.start] ∨ (g.ErasesStart → g.start ∉ f) := by
  induction h with
  | refl => exact Or.inl rfl
  | tail _ hstep ih =>
    right
    intro herases hmem
    obtain ⟨p, hp, r, hr, u, v, rfl, rfl⟩ := hstep
    have hr' := start_notMem_alternative hlevel herases hp hr
    -- The start symbol stands beside the replaced part, so the form before the step had more symbols.
    have hside : g.start ∈ u ∨ g.start ∈ v := by simpa [hr'] using hmem
    rcases ih with heq | hnot
    · have hlen := congrArg List.length heq
      have hleft := List.length_pos_of_ne_nil p.left_ne_nil
      simp only [List.length_append, List.length_singleton] at hlen
      rcases hside with hu | hv
      · have := List.length_pos_of_mem hu
        omega
      · have := List.length_pos_of_mem hv
        omega
    · apply hnot herases
      rcases hside with hu | hv
      · simp [hu]
      · simp [hv]

/-- **A step of level 1 never shortens a form**, unless it erases the lone start symbol. -/
theorem length_le_of_step (hlevel : g.level = .contextSensitive) (h : g.Derives [g.start] f)
    (hstep : g.Step f f') : f.length ≤ f'.length ∨ f = [g.start] ∧ f' = [] := by
  obtain ⟨p, hp, r, hr, u, v, rfl, rfl⟩ := hstep
  cases hmark : Spelling.isMark r with
  | false =>
    left
    have := left_length_le hlevel hp hr hmark
    simp only [List.length_append]
    omega
  | true =>
    -- The mark replaces the start symbol, and then the start symbol is all there is of the form.
    have hleft := left_eq_start_of_isMark hlevel hp hr hmark
    rcases eq_start_or_start_notMem hlevel h with heq | hnot
    · right
      rw [hleft] at heq
      have hlen := congrArg List.length heq
      simp only [List.length_append, List.length_singleton] at hlen
      have hu : u = [] := List.eq_nil_of_length_eq_zero (by omega)
      have hv : v = [] := List.eq_nil_of_length_eq_zero (by omega)
      simp [hu, hv, hleft, Spelling.word_eq_nil hmark]
    · have herases : g.ErasesStart := ⟨p, hp, hleft, List.any_eq_true.mpr ⟨r, hr, hmark⟩⟩
      exact absurd (by simp [hleft]) (hnot herases)

/-- At level 1 no form on the way to a word is longer than the word, the start symbol on its way to
the empty word apart. -/
theorem length_le_of_derives (hlevel : g.level = .contextSensitive) (h : g.Derives [g.start] f)
    (hw : g.Derives f w) : f.length ≤ max w.length 1 := by
  induction hw with
  | refl => exact Nat.le_max_left _ _
  | tail hd hstep ih =>
    rcases length_le_of_step hlevel (h.trans hd) hstep with hle | ⟨heq, -⟩
    · exact ih.trans (max_le_max_right 1 hle)
    · rw [heq, List.length_singleton, max_self] at ih
      exact ih.trans (Nat.le_max_right _ _)

/-! ## Levels 2 and 3: single nonterminals are replaced -/

theorem exists_left_eq (hlevel : g.level = .contextFree ∨ g.level = .regular) {p : Production α}
    (hp : p ∈ g.productions) : ∃ c ∈ g.vocabulary.nonterminals, p.left = [c] := by
  have hfree := List.all_eq_true.mp (isContextFree_of_level hlevel) p hp
  obtain ⟨c, hc, hmem⟩ := (Option.any_eq_true _ _).mp hfree
  exact ⟨c, Vocabulary.isNonterminal_iff.mp hmem, Production.singleLeft_eq_some_iff.mp hc⟩

/-! ## Level 3: the direction fits -/

theorem isPair_right_iff {v : Vocabulary} : v.isPair .right r = true ↔
    ∃ a ∈ v.terminals, ∃ c ∈ v.nonterminals, Spelling.word r = [a, c] := by
  unfold Vocabulary.isPair
  generalize Spelling.word r = w
  match w with
  | [] | [_] | _ :: _ :: _ :: _ => simp
  | [a, c] => simp

theorem isPair_left_iff {v : Vocabulary} : v.isPair .left r = true ↔
    ∃ c ∈ v.nonterminals, ∃ a ∈ v.terminals, Spelling.word r = [c, a] := by
  unfold Vocabulary.isPair
  generalize Spelling.word r = w
  match w with
  | [] | [_] | _ :: _ :: _ :: _ => simp
  | [c, a] => simp

/-- What fits a direction and is spelled with two symbols is a pair in this direction. -/
theorem isPair_of_isLinear {v : Vocabulary} {d : Direction} (h : v.isLinear d r = true) {a b : Symbol}
    (hword : Spelling.word r = [a, b]) : v.isPair d r = true := by
  rw [Vocabulary.isLinear, hword, Bool.or_eq_true] at h
  rcases h with hmark | hpair
  · rw [Spelling.word_eq_nil hmark] at hword
    cases hword
  · exact hpair

/-- What fits one direction is no pair in the other one. -/
theorem isPair_eq_false_of_ne {v : Vocabulary} {d d' : Direction} (h : v.isLinear d r = true)
    (hne : d' ≠ d) : v.isPair d' r = false := by
  rw [Bool.eq_false_iff]
  intro hpair'
  -- The first symbol would have to be a terminal and a nonterminal.
  cases d with
  | right =>
    cases d' with
    | right => exact hne rfl
    | left =>
      obtain ⟨c, hc, a, ha, hword⟩ := isPair_left_iff.mp hpair'
      obtain ⟨a', ha', c', hc', hword'⟩ := isPair_right_iff.mp (isPair_of_isLinear h hword)
      obtain ⟨rfl, -⟩ := List.cons.inj (hword.symm.trans hword')
      exact v.disjoint c hc ha'
  | left =>
    cases d' with
    | right =>
      obtain ⟨a, ha, c, hc, hword⟩ := isPair_right_iff.mp hpair'
      obtain ⟨c', hc', a', ha', hword'⟩ := isPair_left_iff.mp (isPair_of_isLinear h hword)
      obtain ⟨rfl, -⟩ := List.cons.inj (hword.symm.trans hword')
      exact v.disjoint a hc' ha
    | left => exact hne rfl

/-- Without pairs the direction makes no difference. -/
theorem isLinear_right_of_left {v : Vocabulary} (h : v.isLinear .left r = true)
    (hpair : v.isPair .left r = false) : v.isLinear .right r = true := by
  rw [Vocabulary.isLinear, Bool.or_eq_true] at h ⊢
  refine h.imp_right fun h => ?_
  split at h
  · exact h
  · rw [hpair] at h
    cases h

/-- If the productions are linear in one direction, they are linear in the direction that is read off
their pairs. -/
theorem directionOf_of_isLinear {v : Vocabulary} {ps : List (Production α)} {d : Direction}
    (h : ∀ r ∈ allAlternatives ps, v.isLinear d r = true) :
    ∃ d', directionOf v ps = some d' ∧ ∀ r ∈ allAlternatives ps, v.isLinear d' r = true := by
  cases d with
  | right =>
    have hnone : (allAlternatives ps).any (v.isPair .left) = false :=
      List.any_eq_false.mpr fun r hr => by simp [isPair_eq_false_of_ne (h r hr)]
    exact ⟨.right, by simp [directionOf, hnone], h⟩
  | left =>
    have hnone : (allAlternatives ps).any (v.isPair .right) = false :=
      List.any_eq_false.mpr fun r hr => by simp [isPair_eq_false_of_ne (h r hr)]
    cases hpairs : (allAlternatives ps).any (v.isPair .left) with
    | true => exact ⟨.left, by simp [directionOf, hnone, hpairs], h⟩
    | false =>
      refine ⟨.right, by simp [directionOf, hpairs], ?_⟩
      intro r hr
      have hr' := List.any_eq_false.mp hpairs r hr
      exact isLinear_right_of_left (h r hr) (by simpa using hr')

/-- **The direction of a regular grammar fits all its productions.** -/
theorem isLinear_direction (hlevel : g.level = .regular) :
    ∃ d, g.direction = some d ∧ ∀ r ∈ allAlternatives g.productions, g.vocabulary.isLinear d r = true := by
  obtain ⟨d, -, hd⟩ := exists_isLinear_of_level hlevel
  obtain ⟨d', hdirection, hall⟩ := directionOf_of_isLinear hd
  exact ⟨d', by rw [direction, if_pos hlevel, hdirection], hall⟩

theorem isLinear_alternatives (hlevel : g.level = .regular) :
    ∃ d, g.direction = some d ∧ ∀ c, ∀ r ∈ g.alternatives c, g.vocabulary.isLinear d r = true := by
  obtain ⟨d, hdirection, hall⟩ := isLinear_direction hlevel
  refine ⟨d, hdirection, fun c r hr => ?_⟩
  obtain ⟨p, hp, -, hr⟩ := mem_alternatives.mp hr
  exact hall r (List.mem_flatMap.mpr ⟨p, hp, hr⟩)

end Grammar

/-! ## Counting words -/

/-- All declared symbols, terminal or not. -/
def Vocabulary.symbols (v : Vocabulary) : Finset Symbol :=
  v.nonterminals.toList.toFinset ∪ v.terminals.toList.toFinset

theorem Vocabulary.mem_symbols {v : Vocabulary} {c : Symbol} :
    c ∈ v.symbols ↔ v.isDeclared c = true := by
  simp [symbols, isDeclared, or_comm]

/-- The words of a given length over some symbols. -/
def wordsOfLength (cs : List Symbol) : Nat → List Word
  | 0 => [[]]
  | n + 1 => cs.flatMap fun c => (wordsOfLength cs n).map (c :: ·)

/-- The words of bounded length over some symbols. -/
def wordsUpTo (cs : List Symbol) (n : Nat) : List Word :=
  (List.range (n + 1)).flatMap (wordsOfLength cs)

theorem mem_wordsOfLength {cs : List Symbol} {n : Nat} {w : Word} (hlen : w.length = n)
    (hw : ∀ c ∈ w, c ∈ cs) : w ∈ wordsOfLength cs n := by
  induction w generalizing n with
  | nil =>
    subst hlen
    exact List.mem_singleton.mpr rfl
  | cons c w ih =>
    subst hlen
    refine List.mem_flatMap.mpr ⟨c, hw c (by simp), List.mem_map_of_mem (ih rfl ?_)⟩
    exact fun d hd => hw d (List.mem_cons_of_mem c hd)

theorem of_mem_wordsOfLength {cs : List Symbol} {n : Nat} {w : Word} (h : w ∈ wordsOfLength cs n) :
    w.length = n ∧ ∀ c ∈ w, c ∈ cs := by
  induction n generalizing w with
  | zero => simp [List.mem_singleton.mp h]
  | succ n ih =>
    obtain ⟨c, hc, hw⟩ := List.mem_flatMap.mp h
    obtain ⟨v, hv, rfl⟩ := List.mem_map.mp hw
    obtain ⟨hlen, hall⟩ := ih hv
    exact ⟨by rw [List.length_cons, hlen], List.forall_mem_cons.mpr ⟨hc, hall⟩⟩

theorem nodup_wordsOfLength {cs : List Symbol} (h : cs.Nodup) (n : Nat) :
    (wordsOfLength cs n).Nodup := by
  induction n with
  | zero => exact List.nodup_singleton []
  | succ n ih =>
    refine List.nodup_flatMap.mpr ⟨?_, ?_⟩
    · intro c _
      exact ih.map fun v w heq => (List.cons.inj heq).2
    · -- Words with different first symbols are different.
      refine h.imp ?_
      intro c d hne v hv hw
      obtain ⟨v', -, rfl⟩ := List.mem_map.mp hv
      obtain ⟨w', -, heq⟩ := List.mem_map.mp hw
      exact hne (List.cons.inj heq).1.symm

theorem mem_wordsUpTo {cs : List Symbol} {n : Nat} {w : Word} (hlen : w.length ≤ n)
    (hw : ∀ c ∈ w, c ∈ cs) : w ∈ wordsUpTo cs n :=
  List.mem_flatMap.mpr ⟨w.length, List.mem_range.mpr (by omega), mem_wordsOfLength rfl hw⟩

theorem length_wordsOfLength (cs : List Symbol) (n : Nat) :
    (wordsOfLength cs n).length = cs.length ^ n := by
  induction n with
  | zero => rfl
  | succ n ih =>
    rw [wordsOfLength, List.length_flatMap]
    simp only [List.length_map, ih, List.map_const', List.sum_replicate, smul_eq_mul]
    rw [pow_succ, mul_comm]

theorem length_wordsUpTo (cs : List Symbol) (n : Nat) :
    (wordsUpTo cs n).length = ∑ k ∈ Finset.range (n + 1), cs.length ^ k := by
  induction n with
  | zero => rfl
  | succ n ih =>
    rw [wordsUpTo, List.range_succ, List.flatMap_append, List.length_append, Finset.sum_range_succ]
    rw [wordsUpTo] at ih
    simp [ih, length_wordsOfLength]

end PhraseStructure
