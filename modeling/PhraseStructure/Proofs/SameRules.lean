import PhraseStructure.Proofs.Renaming
import PhraseStructure.Proofs.Soundness
import PhraseStructure.Proofs.Strategies

/-!
# The same rules, written in another way

The rules of a grammar may be written in any order.  A left side may be split over several productions, and an
alternative may be given more than once; symbols may be declared in any order, too.  All that counts is which
symbols are declared and which word may take the place of which (`SameRules`).

This takes two steps.  What is asked of productions when a grammar is put together, placed in the hierarchy, and
used for a derivation is asked of each left side with each of its alternatives, so that it can only be answered
alike (`SameRules.forall_iff`, `SameRules.exists_iff`).  What the strategies do is another matter: they try rules
in order, and so they come to a word on different ways, after different numbers of steps, or run out of steps on
one side alone.  But with ample steps each strategy answers a question about derivations (`Grammar.Recognizes`),
and derivations are the same.

## Main definitions

* `SameRules`: the same words may take the place of the same left sides.
* `Grammar.Restates`: two grammars say the same.
* `Grammar.Recognizes`: the question that the strategy of a grammar answers, given ample steps.

## Main results

* `Grammar.exists_assemble_eq_ok`: what can be put together can be put together from the same rules.
* `Grammar.Restates.level_eq`, `Grammar.Restates.direction_eq`: the place in the hierarchy is the same.
* `Grammar.way_of_writing_makes_no_difference`: and so are the answers, from some number of steps on.
-/

namespace PhraseStructure

variable {ps ps' : List Production} {l r : Word}

/-! ## Which word may take the place of which -/

/-- The same words may take the place of the same left sides, by whatever productions. -/
def SameRules (ps ps' : List Production) : Prop :=
  ∀ l r, (∃ p ∈ ps, p.left = l ∧ r ∈ p.alternatives) ↔ ∃ p ∈ ps', p.left = l ∧ r ∈ p.alternatives

theorem mem_offered : r ∈ offered ps l ↔ ∃ p ∈ ps, p.left = l ∧ r ∈ p.alternatives := by
  simp only [offered, List.mem_flatMap, List.mem_filter, decide_eq_true_eq, and_assoc]

/-- Merging says nothing new and leaves nothing out. -/
theorem sameRules_merge (ps : List Production) : SameRules (merge ps) ps := by
  intro l r
  rw [← mem_offered, ← mem_offered, merge, offered_foldl_mergeInto (by simp), mem_foldl_appendNew]
  simp [offered]

namespace SameRules

theorem symm (h : SameRules ps ps') : SameRules ps' ps :=
  fun l r => (h l r).symm

theorem trans {ps'' : List Production} (h : SameRules ps ps') (h' : SameRules ps' ps'') :
    SameRules ps ps'' :=
  fun l r => (h l r).trans (h' l r)

theorem merge (h : SameRules ps ps') : SameRules (merge ps) (merge ps') :=
  ((sameRules_merge ps).trans h).trans (sameRules_merge ps').symm

/-- Some left side has an alternative of a kind on both sides or on neither. -/
theorem exists_iff (h : SameRules ps ps') (Holds : Word → Word → Prop) :
    (∃ p ∈ ps, ∃ r ∈ p.alternatives, Holds p.left r) ↔
      ∃ p ∈ ps', ∃ r ∈ p.alternatives, Holds p.left r := by
  have hpairs : ∀ qs : List Production, (∃ p ∈ qs, ∃ r ∈ p.alternatives, Holds p.left r) ↔
      ∃ l r, (∃ p ∈ qs, p.left = l ∧ r ∈ p.alternatives) ∧ Holds l r := by
    intro qs
    constructor
    · rintro ⟨p, hp, r, hr, hholds⟩
      exact ⟨p.left, r, ⟨p, hp, rfl, hr⟩, hholds⟩
    · rintro ⟨_, r, ⟨p, hp, rfl, hr⟩, hholds⟩
      exact ⟨p, hp, r, hr, hholds⟩
  rw [hpairs, hpairs]
  simp only [h _ _]

/-- What holds of each left side with each of its alternatives holds on both sides or on neither. -/
theorem forall_iff (h : SameRules ps ps') (Holds : Word → Word → Prop) :
    (∀ p ∈ ps, ∀ r ∈ p.alternatives, Holds p.left r) ↔
      ∀ p ∈ ps', ∀ r ∈ p.alternatives, Holds p.left r := by
  have hnot := not_congr (h.exists_iff fun l r => ¬ Holds l r)
  push Not at hnot
  exact hnot

/-- A production has some alternative, so that what holds of the left sides is known from the rules. -/
theorem forall_left_iff (h : SameRules ps ps') (Holds : Word → Prop) :
    (∀ p ∈ ps, Holds p.left) ↔ ∀ p ∈ ps', Holds p.left := by
  have hpairs : ∀ qs : List Production,
      (∀ p ∈ qs, Holds p.left) ↔ ∀ p ∈ qs, ∀ r ∈ p.alternatives, Holds p.left := by
    intro qs
    constructor
    · intro hall p hp _ _
      exact hall p hp
    · intro hall p hp
      obtain ⟨r, hr⟩ := List.exists_mem_of_ne_nil _ p.alternatives_ne_nil
      exact hall p hp r hr
  rw [hpairs, hpairs]
  exact h.forall_iff fun l _ => Holds l

/-! ## The hierarchy -/

theorem mem_allAlternatives_iff (h : SameRules ps ps') :
    r ∈ allAlternatives ps ↔ r ∈ allAlternatives ps' := by
  simpa [allAlternatives] using h.exists_iff fun _ r' => r' = r

theorem any_allAlternatives (h : SameRules ps ps') (test : Word → Bool) :
    (allAlternatives ps).any test = (allAlternatives ps').any test := by
  rw [Bool.eq_iff_iff, List.any_eq_true, List.any_eq_true]
  simp only [h.mem_allAlternatives_iff]

theorem directionOf_eq (h : SameRules ps ps') (v : Vocabulary) : directionOf v ps = directionOf v ps' := by
  rw [directionOf, directionOf, h.any_allAlternatives, h.any_allAlternatives]

theorem all_isContextFree (h : SameRules ps ps') (v : Vocabulary) :
    ps.all (·.isContextFree v) = ps'.all (·.isContextFree v) := by
  rw [Bool.eq_iff_iff, List.all_eq_true, List.all_eq_true]
  simp only [Production.isContextFree, Option.any_eq_true, Production.singleLeft_eq_some_iff]
  exact h.forall_left_iff fun l => ∃ c, l = [c] ∧ v.isNonterminal c = true

theorem all_isLinear (h : SameRules ps ps') (v : Vocabulary) (d : Direction) :
    ps.all (·.isLinear v d) = ps'.all (·.isLinear v d) := by
  rw [Bool.eq_iff_iff, Grammar.isLinear_iff, Grammar.isLinear_iff, h.all_isContextFree]
  simp only [h.mem_allAlternatives_iff]

theorem all_isMonotone (h : SameRules ps ps') (start : Symbol) :
    ps.all (·.isMonotone start) = ps'.all (·.isMonotone start) := by
  rw [Bool.eq_iff_iff, List.all_eq_true, List.all_eq_true]
  simp only [Production.isMonotone, List.all_eq_true]
  exact h.forall_iff fun l r =>
    (if Spelling.isMark r = true then decide (l = [start])
      else decide (l.length ≤ (Spelling.word r).length)) = true

theorem startIsolated_eq (h : SameRules ps ps') (start : Symbol) :
    startIsolated start ps = startIsolated start ps' := by
  have herases : (ps.any fun p => p.left = [start] && p.erases) =
      ps'.any fun p => p.left = [start] && p.erases := by
    rw [Bool.eq_iff_iff, List.any_eq_true, List.any_eq_true]
    simpa using h [start] []
  have hoccurs : ((allAlternatives ps).all fun r => !(Spelling.word r).contains start) =
      (allAlternatives ps').all fun r => !(Spelling.word r).contains start := by
    rw [List.all_eq_not_any_not, List.all_eq_not_any_not, h.any_allAlternatives]
  rw [startIsolated, startIsolated, herases, hoccurs]

/-- **The level is read off the rules**, in whatever way they are written. -/
theorem levelOf_eq (h : SameRules ps ps') (v : Vocabulary) (start : Symbol) :
    levelOf v ps start = levelOf v ps' start := by
  have hregular : isRegular v ps = isRegular v ps' := by
    rw [isRegular, isRegular, h.all_isLinear, h.all_isLinear, h.directionOf_eq]
  have hfree : isContextFree v ps = isContextFree v ps' := h.all_isContextFree v
  have hsensitive : isContextSensitive start ps = isContextSensitive start ps' := by
    rw [isContextSensitive, isContextSensitive, h.all_isMonotone, h.startIsolated_eq]
  rw [levelOf, levelOf, hregular, hfree, hsensitive]

end SameRules

namespace Grammar

variable {g g' : Grammar} {ns ns' ts ts' : List Symbol} {start : Symbol} {f f' w : Word} {cap : Nat}
  {b : Budget}

/-! ## Construction -/

/-- Two grammars say the same: they have the same symbols and the same rules. -/
structure Restates (g' g : Grammar) : Prop where
  vocabulary : g'.vocabulary = g.vocabulary
  start : g'.start = g.start
  rules : SameRules g'.productions g.productions

/-- The productions of a grammar may be replaced by others that give the same rules. -/
theorem exists_restates (g : Grammar) (h : SameRules (merge ps') g.productions) :
    ∃ g' : Grammar, g'.Restates g ∧ g'.productions = merge ps' := by
  have hdeclared : ∀ p ∈ merge ps', ∀ w ∈ p.sides, ∀ c ∈ w, g.vocabulary.isDeclared c = true := by
    intro p hp
    rw [Production.sides_eq, List.forall_mem_cons]
    -- Left sides and alternatives are declared in one production if they are in the others.
    constructor
    · refine (h.forall_left_iff fun l => ∀ c ∈ l, g.vocabulary.isDeclared c = true).mpr ?_ p hp
      intro q hq
      exact g.declared q hq q.left List.mem_cons_self
    · refine (h.forall_iff fun _ r => ∀ c ∈ r, g.vocabulary.isDeclared c = true).mpr ?_ p hp
      intro q hq r hr
      exact fun c hc => isDeclared_of_mem_alternatives hq hr hc
  exact ⟨⟨g.vocabulary, merge ps', g.start, g.start_mem, nodup_left_merge ps', hdeclared⟩,
    ⟨rfl, rfl, h⟩, rfl⟩

theorem make_eq_of_mem_iff (hns : ∀ c, c ∈ ns ↔ c ∈ ns') (hts : ∀ c, c ∈ ts ↔ c ∈ ts') :
    Vocabulary.make ns ts = Vocabulary.make ns' ts' := by
  have hN : Alphabet.ofList ns = Alphabet.ofList ns' := Alphabet.eq_of_mem_iff (by simpa using hns)
  have hT : Alphabet.ofList ts = Alphabet.ofList ts' := Alphabet.eq_of_mem_iff (by simpa using hts)
  simp only [Vocabulary.make, hN, hT]

/-- **What can be put together can be put together from the same rules**, and it says the same. -/
theorem exists_assemble_eq_ok (hns : ∀ c, c ∈ ns ↔ c ∈ ns') (hts : ∀ c, c ∈ ts ↔ c ∈ ts')
    (hps : SameRules ps ps') (h : assemble ns ts ps start = .ok g) :
    ∃ g', assemble ns' ts' ps' start = .ok g' ∧ g'.Restates g := by
  obtain ⟨hmake, hproductions, hstart⟩ := assemble_eq_ok_iff.mp h
  have hrules : SameRules (merge ps') g.productions := by
    rw [hproductions]
    exact hps.merge.symm
  obtain ⟨g', hrestates, hproductions'⟩ := exists_restates g hrules
  refine ⟨g', assemble_eq_ok_iff.mpr ⟨?_, hproductions', hrestates.start.trans hstart⟩, hrestates⟩
  rw [← make_eq_of_mem_iff hns hts, hmake, hrestates.vocabulary]

/-! ## What depends on the rules alone -/

namespace Restates

theorem level_eq (h : g'.Restates g) : g'.level = g.level := by
  rw [level, level, h.vocabulary, h.start, h.rules.levelOf_eq]

theorem direction_eq (h : g'.Restates g) : g'.direction = g.direction := by
  rw [direction, direction, h.level_eq, h.vocabulary, h.rules.directionOf_eq]

theorem strategy_eq (h : g'.Restates g) : g'.strategy = g.strategy := by
  rw [strategy, strategy, h.level_eq]

theorem step_iff (h : g'.Restates g) : g'.Step f f' ↔ g.Step f f' :=
  h.rules.exists_iff fun l r => ∃ u v, f = u ++ l ++ v ∧ f' = u ++ r ++ v

theorem derives_iff (h : g'.Restates g) : g'.Derives f f' ↔ g.Derives f f' := by
  have hstep : g'.Step = g.Step := by
    funext f f'
    exact propext h.step_iff
  rw [derives_iff_reflTransGen, derives_iff_reflTransGen, hstep]

theorem derivesWithin_iff (h : g'.Restates g) : g'.DerivesWithin cap f f' ↔ g.DerivesWithin cap f f' := by
  simp only [DerivesWithin, h.step_iff]

theorem cap_eq (h : g'.Restates g) (b : Budget) (n : Nat) :
    FormSearch.cap g' b n = FormSearch.cap g b n := by
  rw [FormSearch.cap, FormSearch.cap, h.level_eq]

end Restates

/-! ## Answers -/

/-- What the strategy of a grammar asks about a word: whether it is a word of the language, or for a search whether
it is derived through forms that fit the cap. -/
def Recognizes (g : Grammar) (cap : Nat) (w : Word) : Prop :=
  (∀ c ∈ w, c ∈ g.vocabulary.terminals) ∧
    match g.strategy with
    | .search => g.DerivesWithin cap [g.start] w
    | _ => g.Derives [g.start] w

theorem Restates.recognizes_iff (h : g'.Restates g) : g'.Recognizes cap w ↔ g.Recognizes cap w := by
  rw [Recognizes, Recognizes, h.vocabulary, h.start, h.strategy_eq]
  refine and_congr_right fun _ => ?_
  cases g.strategy with
  | search => exact h.derivesWithin_iff
  | walk => exact h.derives_iff
  | chart => exact h.derives_iff

/-- **With ample steps the question is answered**, at all levels. -/
theorem accepted_answerWord_iff (hcap : FormSearch.cap g b w.length = .ok cap)
    (hwalk : g.ampleSteps cap w ≤ b.walkSteps) (hchart : g.ampleSteps cap w ≤ b.chartSteps)
    (hsearch : g.ampleSteps cap w ≤ b.searchSteps) :
    ∃ a, g.answerWord b w = .ok a ∧ (a.outcome.accepted = true ↔ g.Recognizes cap w) := by
  by_cases hw : ∀ c ∈ w, c ∈ g.vocabulary.terminals
  · have hgenerates : g.Generates w ↔ g.Derives [g.start] w := and_iff_right hw
    obtain ⟨found, hfound, haccepted⟩ := accepted_search_iff hcap hsearch
    simp only [answerWord_of_terminals hw, Recognizes, strategy, answerBy]
    rw [and_iff_right hw]
    cases hlevel : g.level with
    | regular => exact ⟨_, rfl, (accepted_walk_iff hlevel hwalk).trans hgenerates⟩
    | contextFree => exact ⟨_, rfl, (accepted_chart_iff (Or.inl hlevel) hchart).trans hgenerates⟩
    | contextSensitive => exact ⟨found, hfound, haccepted⟩
    | unrestricted => exact ⟨found, hfound, haccepted⟩
  · -- A symbol that is no terminal is found before anything else.
    obtain ⟨c, hc, hnot⟩ : ∃ c ∈ w, c ∉ g.vocabulary.terminals := by
      push Not at hw
      exact hw
    have hstray : ∃ stray, w.find? (fun c => !g.vocabulary.isTerminal c) = some stray := by
      rw [← Option.isSome_iff_exists, List.find?_isSome]
      refine ⟨c, hc, ?_⟩
      rwa [Bool.not_eq_true', ← Bool.not_eq_true, Vocabulary.isTerminal_iff]
    obtain ⟨stray, hstray⟩ := hstray
    refine ⟨⟨.rejected, [.strayInput stray]⟩, by rw [answerWord, hstray], ?_⟩
    simp [Outcome.rejected, Recognizes, hw]

/-- Grammars that say the same answer alike, given steps that are ample for both. -/
theorem Restates.exists_bound (h : g'.Restates g) (hcap : b.lengthCap w.length = .ok cap) :
    ∃ bound, ∃ accepted : Bool, ∀ walk chart search, bound ≤ walk → bound ≤ chart → bound ≤ search →
      ∀ g'' ∈ [g, g'], ∃ a, g''.answerWord
        { b with walkSteps := walk, chartSteps := chart, searchSteps := search } w = .ok a ∧
          a.outcome.accepted = accepted := by
  classical
  obtain ⟨cap', hcap'⟩ : ∃ cap', FormSearch.cap g b w.length = .ok cap' :=
    ⟨_, FormSearch.cap_eq_ite hcap⟩
  refine ⟨max (g.ampleSteps cap' w) (g'.ampleSteps cap' w), decide (g.Recognizes cap' w), ?_⟩
  intro walk chart search hwalk hchart hsearch g'' hg''
  have hrestates : FormSearch.cap g'' b w.length = .ok cap' ∧
      g''.ampleSteps cap' w ≤ max (g.ampleSteps cap' w) (g'.ampleSteps cap' w) ∧
      (g''.Recognizes cap' w ↔ g.Recognizes cap' w) := by
    rcases List.mem_pair.mp hg'' with rfl | rfl
    · exact ⟨hcap', le_max_left _ _, Iff.rfl⟩
    · exact ⟨(h.cap_eq b _).trans hcap', le_max_right _ _, h.recognizes_iff⟩
  obtain ⟨hcap'', hample, hrecognizes⟩ := hrestates
  -- The cap does not depend on the steps.
  obtain ⟨a, ha, haccepted⟩ := accepted_answerWord_iff
    (b := { b with walkSteps := walk, chartSteps := chart, searchSteps := search }) hcap''
    (hample.trans hwalk) (hample.trans hchart) (hample.trans hsearch)
  exact ⟨a, ha, by rw [Bool.eq_iff_iff, haccepted, hrecognizes, decide_eq_true_iff]⟩

/-- **The way of writing makes no difference.**  Let the same symbols be declared, in whatever order and however
often, and let the productions give the same rules, in whatever order and with their left sides split up in
whatever way.  Then neither can be put together, or both can; in that case they have the same level and the same
direction, and on every text whose cap does not overflow there is a number of steps from which on both give the
same verdict. -/
theorem way_of_writing_makes_no_difference (hns : ∀ c, c ∈ ns ↔ c ∈ ns') (hts : ∀ c, c ∈ ts ↔ c ∈ ts')
    (hps : ∀ l r, (∃ p ∈ ps, p.left = l ∧ r ∈ p.alternatives) ↔
      ∃ p ∈ ps', p.left = l ∧ r ∈ p.alternatives) (start : Symbol) :
    (∃ fault fault', assemble ns ts ps start = .error fault ∧
      assemble ns' ts' ps' start = .error fault') ∨
    ∃ g g', assemble ns ts ps start = .ok g ∧ assemble ns' ts' ps' start = .ok g' ∧
      g.level = g'.level ∧ g.direction = g'.direction ∧
      ∀ (b : Budget) (input : String) cap, b.lengthCap (Word.read input).length = .ok cap →
        ∃ bound, ∃ accepted : Bool, ∀ walk chart search,
          bound ≤ walk → bound ≤ chart → bound ≤ search → ∀ g'' ∈ [g, g'],
            ∃ a, g''.answer { b with walkSteps := walk, chartSteps := chart, searchSteps := search }
              input = .ok a ∧ a.outcome.accepted = accepted := by
  cases h : assemble ns ts ps start with
  | ok g =>
    obtain ⟨g', h', hrestates⟩ := exists_assemble_eq_ok hns hts hps h
    refine Or.inr ⟨g, g', rfl, h', hrestates.level_eq.symm, hrestates.direction_eq.symm, ?_⟩
    intro b input cap hcap
    exact hrestates.exists_bound hcap
  | error fault =>
    cases h' : assemble ns' ts' ps' start with
    | error fault' => exact Or.inl ⟨fault, fault', rfl, rfl⟩
    | ok g' =>
      -- What can be put together one way can be put together the other way.
      obtain ⟨g, hg, -⟩ := exists_assemble_eq_ok (fun c => (hns c).symm) (fun c => (hts c).symm)
        (SameRules.symm hps) h'
      rw [h] at hg
      cases hg

/-- The rules of some `a` and then a `b`, or nothing, one alternative at a time and one of them twice. -/
def onePerLine : List Production :=
  ([("S", ["ε"]), ("A", ["b"]), ("S", ["aA"]), ("A", ["aA"]), ("S", ["aA"])].mapM
    fun (left, alternatives) => Production.ofText left alternatives).toOption.get rfl

/-- The same rules in another order, with one production for each left side. -/
def onePerSide : List Production :=
  ([("A", ["aA", "b"]), ("S", ["aA", "ε"])].mapM
    fun (left, alternatives) => Production.ofText left alternatives).toOption.get rfl

theorem sameRules_onePerLine_onePerSide : SameRules onePerLine onePerSide := by
  have hoffered : ∀ (ps : List Production) l r, (∃ p ∈ ps, p.left = l ∧ r ∈ p.alternatives) ↔
      (l, r) ∈ ps.flatMap fun p => p.alternatives.map (p.left, ·) := by
    intro ps l r
    simp only [List.mem_flatMap, List.mem_map, Prod.mk.injEq]
    grind
  have hline : onePerLine.flatMap (fun p => p.alternatives.map (p.left, ·)) =
      [(['S'], []), (['A'], ['b']), (['S'], ['a', 'A']), (['A'], ['a', 'A']), (['S'], ['a', 'A'])] := rfl
  have hside : onePerSide.flatMap (fun p => p.alternatives.map (p.left, ·)) =
      [(['A'], ['a', 'A']), (['A'], ['b']), (['S'], ['a', 'A']), (['S'], [])] := rfl
  intro l r
  rw [hoffered, hoffered, hline, hside]
  simp only [List.mem_cons, List.not_mem_nil, or_false]
  tauto

theorem way_of_writing_makes_no_difference_onePerSide :
    ∃ g g', assemble ['S', 'A'] ['a', 'b'] onePerLine 'S' = .ok g ∧
      assemble ['A', 'S', 'A'] ['b', 'b', 'a'] onePerSide 'S' = .ok g' ∧
      g.level = g'.level ∧ g.direction = g'.direction ∧
      ∃ bound, ∃ accepted : Bool, ∀ walk chart search,
        bound ≤ walk → bound ≤ chart → bound ≤ search → ∀ g'' ∈ [g, g'],
          ∃ a, g''.answer { walkSteps := walk, chartSteps := chart, searchSteps := search } "aab" = .ok a ∧
            a.outcome.accepted = accepted := by
  have hns : ∀ c, c ∈ ['S', 'A'] ↔ c ∈ ['A', 'S', 'A'] := by grind
  have hts : ∀ c, c ∈ ['a', 'b'] ↔ c ∈ ['b', 'b', 'a'] := by grind
  rcases way_of_writing_makes_no_difference hns hts sameRules_onePerLine_onePerSide 'S' with
    ⟨fault, -, hfault, -⟩ | ⟨g, g', hg, hg', hlevel, hdirection, h⟩
  · have hassembles : (assemble ['S', 'A'] ['a', 'b'] onePerLine 'S').toOption.isSome = true := rfl
    rw [hfault] at hassembles
    cases hassembles
  · obtain ⟨bound, accepted, hanswers⟩ := h {} "aab" _ rfl
    exact ⟨g, g', hg, hg', hlevel, hdirection, bound, accepted, hanswers⟩

end Grammar

end PhraseStructure
