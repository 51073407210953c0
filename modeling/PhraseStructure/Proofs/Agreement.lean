import PhraseStructure.Proofs.Chart
import PhraseStructure.Proofs.Enumeration
import PhraseStructure.Proofs.LinearWalk
import PhraseStructure.Recognition

/-!
# Listed words and accepted words

Whatever an enumeration lists belongs to the language, so the strategy that fits the grammar should accept
it.  It does, once the ceilings on its steps are high enough: `ampleSteps` says how high, and
`listed_words_accepted` puts this together for all words of a listing.  For the search over sentential forms
the steps are not the whole story.  It drops forms that are too long, by a measure of its own that depends on
the target; but a derivation that the enumeration has found passes through forms of bounded length, and at
level 1 through forms that are no longer than the target.

High enough is more than the default.  The enumeration replaces first occurrences only, where the search
tries all of them, and so the search may have to visit exponentially many forms on its way to a word that
the enumeration reaches in a straight line.  At level 1 that is the only way to fail
(`accepted_or_gaveUp_of_listed`), but it does happen: `anyOrder` lists a word that it does not accept.

## Main definitions

* `Grammar.Accepts`: a text is accepted within a budget.
* `Grammar.ampleSteps`: steps that are enough for every strategy.
* `Grammar.anyOrder`: thirteen symbols that can be replaced in any order.

## Main results

* `Grammar.listed_words_accepted`: with ample steps every listed word is accepted.
* `Grammar.accepted_or_gaveUp_of_listed`: with the default budget, at level 1, a listed word is accepted
  unless the search gives up.
* `Grammar.anyOrder_lists_unaccepted`: and it may give up.
-/

namespace PhraseStructure

namespace Grammar

variable {g : Grammar} {b : Budget} {n cap : Nat} {w : Word}

/-- The text is accepted within the budget. -/
def Accepts (g : Grammar) (b : Budget) (text : String) : Prop :=
  ∃ a, g.answer b text = .ok a ∧ a.outcome.accepted = true

/-- A word of terminals passes on to the strategy that fits. -/
theorem answerWord_of_terminals (hw : ∀ c ∈ w, c ∈ g.vocabulary.terminals) :
    g.answerWord b w = g.answerBy b w g.strategy := by
  have hstray : w.find? (fun c => !g.vocabulary.isTerminal c) = none := by
    rw [List.find?_eq_none]
    intro c hc
    simpa using hw c hc
  rw [answerWord, hstray]

/-- So does a word of terminals that is shown and read back. -/
theorem answer_shown (hw : ∀ c ∈ w, c ∈ g.vocabulary.terminals) :
    g.answer b w.shown = g.answerBy b w g.strategy := by
  rw [answer, read_shown_of_terminals hw, answerWord_of_terminals hw]

/-! ## Ample ceilings -/

/-- Steps that are enough for every strategy to decide on a word, with a cap on the forms of a search. -/
def ampleSteps (g : Grammar) (cap : Nat) (w : Word) : Nat :=
  max (1 + w.length * g.vocabulary.nonterminals.toList.length)
    (max ((w.length + 1) * (g.dots * (w.length + 1)) * (g.dots * (w.length + 1) + 1))
      (∑ k ∈ Finset.range (max cap 1 + 1), g.vocabulary.symbols.card ^ k))

/-- With ample steps the walk decides membership at level 3. -/
theorem accepted_walk_iff (hlevel : g.level = .regular) (hsteps : g.ampleSteps cap w ≤ b.walkSteps) :
    (LinearWalk.answer g b w).outcome.accepted = true ↔ g.Generates w := by
  obtain ⟨d, hdirection, hlinear⟩ := isLinear_alternatives hlevel
  rw [LinearWalk.answer, Verdict.accepted_answer, hdirection, Option.getD_some,
    LinearWalk.exists_found_search_iff hlevel hlinear ((le_max_left _ _).trans hsteps)]

/-- With ample steps the chart decides membership at levels 2 and 3. -/
theorem accepted_chart_iff (hlevel : g.level = .contextFree ∨ g.level = .regular)
    (hsteps : g.ampleSteps cap w ≤ b.chartSteps) :
    (Chart.answer g b w).outcome.accepted = true ↔ g.Generates w := by
  obtain ⟨chart, hbuild⟩ :=
    Chart.exists_build ((le_max_left _ _).trans ((le_max_right _ _).trans hsteps))
  rw [Chart.accepted_answer_iff, generates_iff_yields hlevel]
  exact ⟨fun ⟨_, _, h⟩ => h, fun h => ⟨chart, hbuild, h⟩⟩

/-- With ample steps the search accepts what is derived below its cap. -/
theorem accepted_search_iff (hcap : FormSearch.cap g b w.length = .ok cap)
    (hsteps : g.ampleSteps cap w ≤ b.searchSteps) :
    ∃ a, FormSearch.answer g b w = .ok a ∧
      (a.outcome.accepted = true ↔ g.DerivesWithin cap [g.start] w) := by
  refine ⟨_, FormSearch.answer_eq_of_cap_eq hcap, ?_⟩
  rw [Verdict.accepted_answer, FormSearch.exists_found_search_iff]
  exact (le_max_right _ _).trans ((le_max_right _ _).trans hsteps)

/-- **With ample steps the strategy that fits accepts** what is derived below the cap of a search. -/
theorem accepts_of_ampleSteps (hw : ∀ c ∈ w, c ∈ g.vocabulary.terminals)
    (hcap : FormSearch.cap g b w.length = .ok cap) (hwithin : g.DerivesWithin cap [g.start] w)
    (hwalk : g.ampleSteps cap w ≤ b.walkSteps) (hchart : g.ampleSteps cap w ≤ b.chartSteps)
    (hsearch : g.ampleSteps cap w ≤ b.searchSteps) : g.Accepts b w.shown := by
  have hgenerates : g.Generates w := ⟨hw, hwithin.derives⟩
  have hsearched : g.strategy = .search → g.Accepts b w.shown := by
    intro hstrategy
    obtain ⟨a, ha, haccepted⟩ := accepted_search_iff hcap hsearch
    exact ⟨a, by rw [answer_shown hw, hstrategy, answerBy, ha], haccepted.mpr hwithin⟩
  cases hlevel : g.level with
  | regular =>
    refine ⟨_, by rw [answer_shown hw, strategy, hlevel, answerBy], ?_⟩
    exact (accepted_walk_iff hlevel hwalk).mpr hgenerates
  | contextFree =>
    refine ⟨_, by rw [answer_shown hw, strategy, hlevel, answerBy], ?_⟩
    exact (accepted_chart_iff (Or.inl hlevel) hchart).mpr hgenerates
  | contextSensitive => exact hsearched (by rw [strategy, hlevel])
  | unrestricted => exact hsearched (by rw [strategy, hlevel])

/-- A derivation that fits the enumeration fits the cap of the search as well. -/
theorem exists_cap_derivesWithin (hcap : b.lengthCap w.length = .ok cap) {bound : Nat}
    (hlong : bound ≤ cap) (h : g.DerivesWithin bound [g.start] w) :
    ∃ cap', FormSearch.cap g b w.length = .ok cap' ∧ g.DerivesWithin cap' [g.start] w := by
  refine ⟨_, FormSearch.cap_eq_ite hcap, ?_⟩
  split
  · next hlevel => exact (h.mono hlong).min_length hlevel
  · exact h.mono hlong

/-! ## Symbols replaced in any order

Thirteen symbols can be replaced in any order.  Whoever replaces the first of them each time needs fourteen
steps to the only word; whoever tries all of them passes through all mixtures of symbols that have been
replaced and symbols that have not, and most of them are nearer to the start symbol than the word. -/

/-- Thirteen symbols that can be replaced in any order, each by one terminal.  The last rule is never used;
it takes the grammar to level 1. -/
def anyOrder : Grammar :=
  (Grammar.ofRules "SAB" "a" [("S", ["AAAAAAAAAAAAA"]), ("A", ["a"]), ("AB", ["BA"])]
    'S').toOption.get rfl

namespace AnyOrder

/-- A form of replaced and unreplaced symbols. -/
def Mixed (f : Word) : Prop :=
  ∀ c ∈ f, c = 'A' ∨ c = 'a'

theorem step_cases {f f' : Word} (h : anyOrder.Step f f') :
    ∃ u v, f = u ++ ['S'] ++ v ∧ f' = u ++ List.replicate 13 'A' ++ v ∨
      f = u ++ ['A'] ++ v ∧ f' = u ++ ['a'] ++ v ∨ f = u ++ ['A', 'B'] ++ v ∧ f' = u ++ ['B', 'A'] ++ v := by
  have hrules : (anyOrder.productions.flatMap fun p => p.alternatives.map fun r => (p.left, r)) =
      [(['S'], List.replicate 13 'A'), (['A'], ['a']), (['A', 'B'], ['B', 'A'])] := by decide
  obtain ⟨p, hp, r, hr, u, v, rfl, rfl⟩ := h
  have hrule : (p.left, r) ∈ anyOrder.productions.flatMap fun p => p.alternatives.map fun r =>
      (p.left, r) := List.mem_flatMap.mpr ⟨p, hp, List.mem_map_of_mem hr⟩
  rw [hrules] at hrule
  refine ⟨u, v, ?_⟩
  simp only [List.mem_cons, Prod.mk.injEq, List.not_mem_nil, or_false] at hrule
  rcases hrule with ⟨hleft, hright⟩ | ⟨hleft, hright⟩ | ⟨hleft, hright⟩
  · exact Or.inl ⟨by rw [hleft], by rw [hright, Word.spelling_word]⟩
  · exact Or.inr (Or.inl ⟨by rw [hleft], by rw [hright, Word.spelling_word]⟩)
  · exact Or.inr (Or.inr ⟨by rw [hleft], by rw [hright, Word.spelling_word]⟩)

/-- A step away from a mixture replaces one more symbol. -/
theorem Mixed.step {f f' : Word} (hf : Mixed f) (h : anyOrder.Step f f') :
    Mixed f' ∧ f'.count 'a' = f.count 'a' + 1 := by
  obtain ⟨u, v, ⟨rfl, -⟩ | ⟨rfl, rfl⟩ | ⟨rfl, -⟩⟩ := step_cases h
  · have := hf 'S' (by simp)
    simp at this
  · refine ⟨?_, ?_⟩
    · intro c hc
      simp only [List.mem_append, List.mem_singleton] at hc
      rcases hc with (hc | rfl) | hc
      · exact hf c (by simp [hc])
      · exact Or.inr rfl
      · exact hf c (by simp [hc])
    · simp only [List.count_append, List.count_cons, List.count_nil]
      simp
      omega
  · have := hf 'B' (by simp)
    simp at this

/-- **How far a form is from the start symbol**: one step for every symbol that has been replaced, and the
first step. -/
theorem path_length_of_leads {cap : Nat} {node : FormSearch.Node}
    (h : Frontier.Leads (FormSearch.moves anyOrder cap) ⟨['S'], []⟩ node) :
    node = ⟨['S'], []⟩ ∨ Mixed node.form ∧ node.path.length = node.form.count 'a' + 1 := by
  induction h with
  | refl => exact Or.inl rfl
  | @tail node node' _ hmove ih =>
    right
    have hlength := FormSearch.path_length_of_mem_moves hmove
    have hstep := (FormSearch.exists_mem_moves_iff.mp ⟨node', hmove, rfl⟩).1
    rcases ih with rfl | ⟨hmixed, hpath⟩
    · -- The first step replaces the start symbol, which is all there is.
      obtain ⟨u, v, ⟨hform, hform'⟩ | ⟨hform, -⟩ | ⟨hform, -⟩⟩ := step_cases hstep
      · have hlen := congrArg List.length hform
        simp only [List.length_append, List.length_singleton] at hlen
        obtain rfl : u = [] := List.eq_nil_of_length_eq_zero (by omega)
        obtain rfl : v = [] := List.eq_nil_of_length_eq_zero (by omega)
        rw [hform', hlength, List.nil_append, List.append_nil]
        exact ⟨fun c hc => Or.inl (List.eq_of_mem_replicate hc), by decide⟩
      · have hmem : 'A' ∈ ['S'] := (congrArg ('A' ∈ ·) hform).mpr (by simp)
        simp at hmem
      · have hmem : 'A' ∈ ['S'] := (congrArg ('A' ∈ ·) hform).mpr (by simp)
        simp at hmem
    · obtain ⟨hmixed', hcount⟩ := hmixed.step hstep
      exact ⟨hmixed', by omega⟩

/-- All mixtures are derived. -/
theorem derives_of_mixed (hw : Mixed w) (u : Word) :
    anyOrder.Derives (u ++ List.replicate w.length 'A') (u ++ w) := by
  induction w generalizing u with
  | nil => exact .refl
  | cons c w ih =>
    obtain ⟨hc, hrest⟩ := List.forall_mem_cons.mp hw
    rw [List.length_cons, List.replicate_succ]
    rcases hc with rfl | rfl
    · simpa using ih hrest (u ++ ['A'])
    · have halt : ['a'] ∈ anyOrder.alternatives 'A' := by decide
      have hstep := step_of_mem_alternatives halt u (List.replicate w.length 'A')
      exact .head (by simpa using hstep) (by simpa using ih hrest (u ++ ['a']))

theorem derives_start (hw : Mixed w) (hlength : w.length = 13) : anyOrder.Derives ['S'] w := by
  have halt : List.replicate 13 'A' ∈ anyOrder.alternatives 'S' := by decide
  have hstep := step_of_mem_alternatives halt [] []
  have hderives := derives_of_mixed hw []
  rw [hlength] at hderives
  exact .head (by simpa using hstep) (by simpa using hderives)

/-- The word in which everything has been replaced. -/
def word : Word := List.replicate 13 'a'

theorem count_lt_of_ne (hlength : w.length = 13) (hne : w ≠ word) : w.count 'a' < 13 := by
  refine lt_of_le_of_ne (hlength ▸ List.count_le_length) ?_
  intro hcount
  refine hne (List.eq_replicate_iff.mpr ⟨hlength, ?_⟩)
  intro c hc
  exact (List.count_eq_length.mp (hcount.trans hlength.symm) c hc).symm

/-- **The search does not get to the word**: more than five thousand mixtures come before it. -/
theorem search_ne_found (path : List PhraseStructure.Step) :
    FormSearch.search anyOrder 13 5000 word ≠ .found path := by
  intro hfound
  have hlevel : anyOrder.level = .contextSensitive := by decide
  have hrank : ∀ n, ∀ m ∈ FormSearch.moves anyOrder 13 n, m.path.length = n.path.length + 1 :=
    fun _ _ => FormSearch.path_length_of_mem_moves
  obtain ⟨node, hnode, hgoal, hnear⟩ := Frontier.length_lt_of_search_found hrank
    (FormSearch.interchangeable anyOrder 13 word _).moves hfound
  have hform : node.form = word := FormSearch.finish?_ne_none_iff.mp (by rw [hgoal]; simp)
  have hrank : node.path.length = 14 := by
    rcases path_length_of_leads hnode with rfl | ⟨-, hlength⟩
    · simp [word] at hform
    · rw [hlength, hform]
      decide
  have hfew := hnear ((wordsOfLength ['A', 'a'] 13).erase word)
    ((nodup_wordsOfLength (by decide) 13).erase _) ?_
  · have hmem : word ∈ wordsOfLength ['A', 'a'] 13 :=
      mem_wordsOfLength rfl fun c hc => by simp [List.eq_of_mem_replicate hc]
    rw [List.length_erase_of_mem hmem, length_wordsOfLength] at hfew
    simp at hfew
  · intro f hf
    obtain ⟨hne, hf⟩ := (nodup_wordsOfLength (by decide) 13).mem_erase_iff.mp hf
    obtain ⟨hlength, hall⟩ := of_mem_wordsOfLength hf
    have hmixed : Mixed f := fun c hc => by simpa using hall c hc
    -- Every other mixture is derived, and the search reaches it on a shorter path.
    have hwithin := (derivesWithin_iff_derives hlevel).mpr (derives_start hmixed hlength)
    rw [hlength] at hwithin
    obtain ⟨m, hm, rfl⟩ := FormSearch.exists_leads_iff.mpr hwithin
    refine ⟨m, hm, rfl, by rw [hform]; exact hne, ?_⟩
    have hcount := count_lt_of_ne hlength hne
    rcases path_length_of_leads hm with rfl | ⟨-, hpath⟩
    · simp [hrank]
    · simp only [hpath, hrank]
      omega

/-- The forms that can be had by first occurrences: the symbols are replaced from the front. -/
def forms : List Word :=
  ['S'] :: (List.range 14).map fun i => List.replicate i 'a' ++ List.replicate (13 - i) 'A'

theorem leads_word : Frontier.Leads (anyOrder.kept {}) ['S'] word := by
  have hfirst : List.replicate 13 'A' ∈ anyOrder.kept {} ['S'] := by decide
  have hnext : ∀ i < 13, List.replicate (i + 1) 'a' ++ List.replicate (13 - (i + 1)) 'A' ∈
      anyOrder.kept {} (List.replicate i 'a' ++ List.replicate (13 - i) 'A') := by decide
  have hleads : ∀ i ≤ 13, Frontier.Leads (anyOrder.kept {}) ['S']
      (List.replicate i 'a' ++ List.replicate (13 - i) 'A') := by
    intro i hi
    induction i with
    | zero => exact .single hfirst
    | succ i ih => exact (ih (by omega)).tail (hnext i (by omega))
  exact hleads 13 le_rfl

theorem word_mem_enumerate : word ∈ (anyOrder.enumerate {} 1).1 :=
  mem_enumerate_of_only forms List.mem_cons_self (by decide) (by decide) (by decide) leads_word
    (by decide) (by decide)

/-- Within the default budget the word is listed but not accepted. -/
theorem not_accepts_word : ¬ anyOrder.Accepts {} word.shown := by
  rintro ⟨a, ha, haccepted⟩
  have hcap : FormSearch.cap anyOrder {} word.length = .ok 13 := by decide
  rw [answer_shown (allTerminal_iff.mp (by decide)), show anyOrder.strategy = .search by decide, answerBy,
    FormSearch.answer_eq_of_cap_eq hcap] at ha
  cases ha
  obtain ⟨path, hfound⟩ := Verdict.accepted_answer.mp haccepted
  exact search_ne_found path hfound

end AnyOrder

/-! ## Listed words are accepted -/

/-- **Listed words are accepted**, at all levels: if the search may keep forms as long as those of the
enumeration, there is a number of steps from which on every word of the listing is accepted. -/
theorem listed_words_accepted (g : Grammar) (b : Budget) (n : Nat)
    (hcap : ∀ w ∈ (g.enumerate b n).1, ∃ cap, b.lengthCap w.length = .ok cap ∧
      b.enumerationLength ≤ cap) :
    ∃ bound, ∀ walk chart search, bound ≤ walk → bound ≤ chart → bound ≤ search →
      ∀ w ∈ (g.enumerate { b with walkSteps := walk, chartSteps := chart, searchSteps := search } n).1,
        g.Accepts { b with walkSteps := walk, chartSteps := chart, searchSteps := search } w.shown := by
  -- The listing and the cap do not depend on the steps that are raised, so each word has a bound.
  have hword : ∀ w ∈ (g.enumerate b n).1, ∃ bound, ∀ walk chart search, bound ≤ walk →
      bound ≤ chart → bound ≤ search →
      g.Accepts { b with walkSteps := walk, chartSteps := chart, searchSteps := search } w.shown := by
    intro w hw
    obtain ⟨hterminals, hwithin⟩ := derivesWithin_of_mem_enumerate hw
    obtain ⟨cap, hfits, hlong⟩ := hcap w hw
    obtain ⟨cap', hcap', hwithin'⟩ := exists_cap_derivesWithin hfits hlong hwithin
    refine ⟨g.ampleSteps cap' w, ?_⟩
    intro walk chart search hwalk hchart hsearch
    exact accepts_of_ampleSteps hterminals hcap' hwithin' hwalk hchart hsearch
  choose! bound hbound using hword
  refine ⟨(g.enumerate b n).1.toFinset.sup bound, ?_⟩
  intro walk chart search hwalk hchart hsearch w hw
  have hle : bound w ≤ (g.enumerate b n).1.toFinset.sup bound :=
    Finset.le_sup (List.mem_toFinset.mpr hw)
  exact hbound w hw walk chart search (hle.trans hwalk) (hle.trans hchart) (hle.trans hsearch)

/-- The default budget lets the search keep forms far longer than those of the enumeration. -/
theorem lengthCap_default {n : Nat} (h : n ≤ ({} : Budget).enumerationLength) :
    ({} : Budget).lengthCap n = .ok (max (3 * n + 50) 100) := by
  have hn : n ≤ 20 := h
  have hproduct : ¬ wordLimit ≤ ({} : Budget).lengthFactor * n := by
    change ¬ 18446744073709551616 ≤ 3 * n
    omega
  have hsum : ¬ wordLimit ≤ ({} : Budget).lengthFactor * n + ({} : Budget).lengthSlack := by
    change ¬ 18446744073709551616 ≤ 3 * n + 50
    omega
  rw [Budget.lengthCap, if_neg hproduct, if_neg hsum]

theorem listed_words_accepted_anyOrder :
    (∀ w ∈ (anyOrder.enumerate {} 1).1, ∃ cap, ({} : Budget).lengthCap w.length = .ok cap ∧
      ({} : Budget).enumerationLength ≤ cap) ∧
    AnyOrder.word ∈ (anyOrder.enumerate {} 1).1 ∧
    ∃ bound, ∀ steps, bound ≤ steps →
      anyOrder.Accepts { walkSteps := steps, chartSteps := steps, searchSteps := steps }
        AnyOrder.word.shown := by
  have hcap : ∀ w ∈ (anyOrder.enumerate {} 1).1, ∃ cap, ({} : Budget).lengthCap w.length = .ok cap ∧
      ({} : Budget).enumerationLength ≤ cap := by
    intro w hw
    refine ⟨_, lengthCap_default (length_le_of_mem_enumerate hw), ?_⟩
    exact le_trans (by decide) (le_max_right _ _)
  obtain ⟨bound, hbound⟩ := listed_words_accepted anyOrder {} 1 hcap
  refine ⟨hcap, AnyOrder.word_mem_enumerate, bound, ?_⟩
  intro steps hsteps
  exact hbound steps steps steps hsteps hsteps hsteps _ AnyOrder.word_mem_enumerate

/-! ## The default ceilings at level 1 -/

theorem search_ne_exhausted {steps : Nat} (h : g.DerivesWithin cap [g.start] w) :
    FormSearch.search g cap steps w ≠ .exhausted := by
  intro hexhausted
  obtain ⟨node, hnode, hform⟩ := FormSearch.exists_leads_iff.mpr h
  exact FormSearch.finish?_ne_none_iff.mpr hform (Frontier.goal_eq_none_of_search_exhausted
    (FormSearch.interchangeable g cap w _) hexhausted hnode)

/-- **With the default budget, at level 1, a listed word is accepted unless the search gives up.**  It does
not give up on words that leave it few enough forms. -/
theorem accepted_or_gaveUp_of_listed (hlevel : g.level = .contextSensitive)
    (hw : w ∈ (g.enumerate {} n).1) :
    ∃ a, g.answer {} w.shown = .ok a ∧
      (a.outcome.accepted = true ∨ a.outcome.accepted = false ∧
        ∃ waiting, a.events = [.searchGaveUp ({} : Budget).searchSteps waiting]) ∧
      (∑ k ∈ Finset.range (max w.length 1 + 1), g.vocabulary.symbols.card ^ k ≤
        ({} : Budget).searchSteps → a.outcome.accepted = true) := by
  obtain ⟨hterminals, hwithin⟩ := derivesWithin_of_mem_enumerate hw
  have hlength := length_le_of_mem_enumerate hw
  have hcap : FormSearch.cap g {} w.length = .ok (max w.length 1) := by
    refine FormSearch.cap_eq_of_contextSensitive hlevel (lengthCap_default hlength) ?_
    have hshort : w.length ≤ 20 := hlength
    omega
  have hbelow := (derivesWithin_iff_derives hlevel).mpr hwithin.derives
  refine ⟨_, by rw [answer_shown hterminals, strategy, hlevel, answerBy,
    FormSearch.answer_eq_of_cap_eq hcap], ?_, ?_⟩
  · cases hverdict : FormSearch.search g (max w.length 1) ({} : Budget).searchSteps w with
    | found path => exact Or.inl rfl
    | exhausted => exact absurd hverdict (search_ne_exhausted hbelow)
    | gaveUp waiting => exact Or.inr ⟨rfl, waiting, rfl⟩
  · intro hfew
    have hroom : max (max w.length 1) 1 = max w.length 1 := max_eq_left (le_max_right _ _)
    rw [Verdict.accepted_answer, FormSearch.exists_found_search_iff (by rw [hroom]; exact hfew)]
    exact hbelow

theorem gaveUp_anyOrder :
    anyOrder.level = .contextSensitive ∧ AnyOrder.word ∈ (anyOrder.enumerate {} 1).1 ∧
    ∃ a, anyOrder.answer {} AnyOrder.word.shown = .ok a ∧ a.outcome.accepted = false ∧
      ∃ waiting, a.events = [.searchGaveUp 5000 waiting] := by
  have hlevel : anyOrder.level = .contextSensitive := by decide
  obtain ⟨a, ha, haccepted | ⟨hrejected, hgaveUp⟩, -⟩ :=
    accepted_or_gaveUp_of_listed hlevel AnyOrder.word_mem_enumerate
  · exact absurd ⟨a, ha, haccepted⟩ AnyOrder.not_accepts_word
  · exact ⟨hlevel, AnyOrder.word_mem_enumerate, a, ha, hrejected, hgaveUp⟩

/-- A grammar of level 1 may list a word that it does not accept within the same, default budget. -/
theorem anyOrder_lists_unaccepted :
    anyOrder.level = .contextSensitive ∧ AnyOrder.word.shown = "aaaaaaaaaaaaa" ∧
    AnyOrder.word ∈ (anyOrder.enumerate {} 1).1 ∧ ¬ anyOrder.Accepts {} AnyOrder.word.shown :=
  ⟨by decide, by decide, AnyOrder.word_mem_enumerate, AnyOrder.not_accepts_word⟩

end Grammar

end PhraseStructure
