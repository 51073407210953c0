import PhraseStructure.Proofs.Agreement

/-!
# The strategies agree

A regular grammar may be walked, parsed with a chart, or searched form by form, and a context-free grammar
may be parsed or searched.  Given enough steps, all of them decide the same question, and so they agree: walk
and chart follow the derivations of a word in their own ways, and none of them is lost.

The search has one more limit.  It drops forms that are longer than its cap, and a derivation that passes
through a longer form is lost with it.  At level 3 every form on the way to a word consists of symbols of the
word and at most one nonterminal, so that a cap of one symbol more than the word costs nothing
(`LinearWalk.Runs.derivesWithin`).  At level 2 a form may be as long as it likes if it can shrink again; but
without empty alternatives it cannot, and a cap at the length of the word is enough
(`Grammar.Derives.derivesWithin_length`).

## Main definitions

* `Grammar.Agree`: some strategies decide alike on a word, and rightly.

## Main results

* `Grammar.accepted_answerBy_iff`: with ample steps and a harmless cap every strategy decides membership.
* `Grammar.strategies_agree`: all strategies agree at level 3, and chart and search at level 2 without empty
  alternatives.
-/

namespace PhraseStructure

/-! ## Caps that cost nothing -/

namespace Grammar

variable {g : Grammar} {cap : Nat} {f f' w : Word}

/-- In a context forms are longer by the context. -/
theorem DerivesWithin.context (h : g.DerivesWithin cap f f') (u v : Word) :
    g.DerivesWithin (u.length + cap + v.length) (u ++ f ++ v) (u ++ f' ++ v) := by
  induction h with
  | refl => exact .refl
  | tail _ hstep ih =>
    refine ih.tail ⟨hstep.1.context u v, ?_⟩
    have hlength := hstep.2
    simp only [List.length_append]
    omega

/-- Without empty alternatives, replacing a single nonterminal never shortens a form. -/
theorem Step.length_le (hlevel : g.level = .contextFree ∨ g.level = .regular)
    (hnonempty : ∀ p ∈ g.productions, [] ∉ p.alternatives) (h : g.Step f f') :
    f.length ≤ f'.length := by
  obtain ⟨p, hp, r, hr, u, v, rfl, rfl⟩ := h
  obtain ⟨c, -, hleft⟩ := exists_left_eq hlevel hp
  have hne : r ≠ [] := fun hnil => hnonempty p hp (hnil ▸ hr)
  have hpos := List.length_pos_of_ne_nil hne
  simp only [List.length_append, hleft, List.length_singleton, Word.spelling_word]
  omega

/-- **Without empty alternatives no form outgrows the word it leads to.** -/
theorem Derives.derivesWithin_length (hlevel : g.level = .contextFree ∨ g.level = .regular)
    (hnonempty : ∀ p ∈ g.productions, [] ∉ p.alternatives) (h : g.Derives f w) :
    g.DerivesWithin w.length f w := by
  induction h with
  | refl => exact .refl
  | tail _ hstep ih => exact (ih.mono (hstep.length_le hlevel hnonempty)).tail ⟨hstep, le_rfl⟩

end Grammar

namespace LinearWalk

variable {g : Grammar} {d : Direction} {c : Symbol} {rest w : Word} {cap : Nat}

theorem derivesWithin_orient_cons (h : g.DerivesWithin cap [c] (d.orient rest)) (a : Symbol) :
    g.DerivesWithin (cap + 1) (d.orient [a, c]) (d.orient (a :: rest)) := by
  cases d with
  | right => simpa [Direction.orient, Nat.add_comm] using h.context [a] []
  | left => simpa [Direction.orient] using h.context [] [a]

/-- **A run needs room for one nonterminal** besides the symbols it reads. -/
theorem Runs.derivesWithin (h : Runs g d c rest) :
    g.DerivesWithin (rest.length + 1) [c] (d.orient rest) := by
  induction h with
  | @close c r hr hlen =>
    rw [d.orient_orient, d.length_orient]
    refine .single ⟨by simpa using Grammar.step_of_mem_alternatives hr [] [], ?_⟩
    exact Nat.le_succ _
  | @advance c a c' r rest hr horient _ ih =>
    have hpair : r = d.orient [a, c'] := by rw [← horient, d.orient_orient]
    have hstep : g.Step [c] (d.orient [a, c']) := by
      simpa using Grammar.step_of_mem_alternatives (hpair ▸ hr) [] []
    refine (derivesWithin_orient_cons ih a).head ⟨hstep, ?_⟩
    rw [d.length_orient]
    simp

theorem derivesWithin_of_generates (hlevel : g.level = .regular) (h : g.Generates w) :
    g.DerivesWithin (w.length + 1) [g.start] w := by
  obtain ⟨d, -, hlinear⟩ := Grammar.isLinear_alternatives hlevel
  have hruns := (runs_start_iff_generates hlevel hlinear).mpr h
  simpa using hruns.derivesWithin

end LinearWalk

/-! ## What each strategy decides -/

namespace Grammar

variable {g : Grammar} {b : Budget} {cap : Nat} {w : Word}

/-- **With ample steps every strategy decides membership** at levels 2 and 3: the walk if the grammar is
regular, and the search if its cap does not stand in the way of any word. -/
theorem accepted_answerBy_iff (hlevel : g.level = .contextFree ∨ g.level = .regular)
    (hw : ∀ c ∈ w, c ∈ g.vocabulary.terminals) (hcap : b.lengthCap w.length = .ok cap)
    (hwithin : g.Generates w → g.DerivesWithin cap [g.start] w)
    (hchart : g.ampleSteps cap w ≤ b.chartSteps) (hsearch : g.ampleSteps cap w ≤ b.searchSteps)
    {strategy : Strategy}
    (hwalk : strategy = .walk → g.level = .regular ∧ g.ampleSteps cap w ≤ b.walkSteps) :
    ∃ a, g.answerBy b w strategy = .ok a ∧ (a.outcome.accepted = true ↔ g.Generates w) := by
  cases strategy with
  | walk =>
    obtain ⟨hregular, hsteps⟩ := hwalk rfl
    exact ⟨_, rfl, accepted_walk_iff hregular hsteps⟩
  | chart => exact ⟨_, rfl, accepted_chart_iff hlevel hchart⟩
  | search =>
    have hcap' : FormSearch.cap g b w.length = .ok cap := by
      rcases hlevel with hlevel | hlevel
      · simp only [FormSearch.cap, hlevel, hcap]
      · simp only [FormSearch.cap, hlevel, hcap]
    obtain ⟨a, ha, haccepted⟩ := accepted_search_iff hcap' hsearch
    exact ⟨a, ha, haccepted.trans ⟨fun h => ⟨hw, h.derives⟩, hwithin⟩⟩

/-! ## Agreement -/

/-- Some strategies agree on a word: each of them comes to an answer, and they accept all or none, as the
word belongs to the language or not. -/
def Agree (g : Grammar) (b : Budget) (w : Word) (strategies : List Strategy) : Prop :=
  ∃ accepted : Bool, (accepted = true ↔ g.Generates w) ∧
    ∀ strategy ∈ strategies, ∃ a, g.answerBy b w strategy = .ok a ∧ a.outcome.accepted = accepted

theorem agree_of_forall {strategies : List Strategy}
    (h : ∀ strategy ∈ strategies, ∃ a, g.answerBy b w strategy = .ok a ∧
      (a.outcome.accepted = true ↔ g.Generates w)) : g.Agree b w strategies := by
  classical
  refine ⟨decide (g.Generates w), decide_eq_true_iff, ?_⟩
  intro strategy hstrategy
  obtain ⟨a, ha, haccepted⟩ := h strategy hstrategy
  exact ⟨a, ha, by rw [Bool.eq_iff_iff, haccepted, decide_eq_true_iff]⟩

/-- **The strategies agree where they overlap.**  Let the cap of the search for a word of terminals leave
room for one symbol more than the word: then at level 3 walk, chart and search agree on the word, from some
number of steps on.  At level 2, if there are no empty alternatives, chart and search do so already when the
cap leaves room for the word, or for the start symbol if the word is empty. -/
theorem strategies_agree (g : Grammar) (b : Budget) (hw : ∀ c ∈ w, c ∈ g.vocabulary.terminals)
    (hcap : b.lengthCap w.length = .ok cap) :
    (g.level = .regular → w.length + 1 ≤ cap →
      ∃ bound, ∀ walk chart search, bound ≤ walk → bound ≤ chart → bound ≤ search →
        g.Agree { b with walkSteps := walk, chartSteps := chart, searchSteps := search } w
          [.walk, .chart, .search]) ∧
    (g.level = .contextFree → (∀ p ∈ g.productions, [] ∉ p.alternatives) → max w.length 1 ≤ cap →
      ∃ bound, ∀ chart search, bound ≤ chart → bound ≤ search →
        g.Agree { b with chartSteps := chart, searchSteps := search } w [.chart, .search]) := by
  constructor
  · intro hlevel hroom
    refine ⟨g.ampleSteps cap w, ?_⟩
    intro walk chart search hwalk hchart hsearch
    have hwithin : g.Generates w → g.DerivesWithin cap [g.start] w :=
      fun h => (LinearWalk.derivesWithin_of_generates hlevel h).mono hroom
    refine agree_of_forall fun strategy _ => ?_
    apply accepted_answerBy_iff (Or.inr hlevel) hw
    · -- The cap does not depend on the steps.
      exact hcap
    · exact hwithin
    · exact hchart
    · exact hsearch
    · exact fun _ => ⟨hlevel, hwalk⟩
  · intro hlevel hnonempty hroom
    refine ⟨g.ampleSteps cap w, ?_⟩
    intro chart search hchart hsearch
    have hwithin : g.Generates w → g.DerivesWithin cap [g.start] w := by
      intro h
      have hlength := h.2.derivesWithin_length (Or.inl hlevel) hnonempty
      exact hlength.mono ((le_max_left _ _).trans hroom)
    refine agree_of_forall fun strategy hstrategy => ?_
    apply accepted_answerBy_iff (Or.inl hlevel) hw
    · exact hcap
    · exact hwithin
    · exact hchart
    · exact hsearch
    · rintro rfl
      simp at hstrategy

/-- As many `a` as `b`, the ones around the others. -/
def nested : Grammar :=
  (Grammar.ofRules "S" "ab" [("S", ["ab", "aSb"])] 'S').toOption.get rfl

theorem strategies_agree_nested :
    (LinearWalk.backwards.level = .regular ∧ ∃ bound, ∀ steps, bound ≤ steps →
      LinearWalk.backwards.Agree { walkSteps := steps, chartSteps := steps, searchSteps := steps }
        ['a', 'a', 'b'] [.walk, .chart, .search]) ∧
    (nested.level = .contextFree ∧ ∃ bound, ∀ steps, bound ≤ steps →
      nested.Agree { chartSteps := steps, searchSteps := steps } ['a', 'b'] [.chart, .search]) := by
  have hlevel : LinearWalk.backwards.level = .regular := by decide
  have hlevel' : nested.level = .contextFree := by decide
  have hterminals : ∀ c ∈ ['a', 'a', 'b'], c ∈ LinearWalk.backwards.vocabulary.terminals :=
    allTerminal_iff.mp (by decide)
  have hterminals' : ∀ c ∈ ['a', 'b'], c ∈ nested.vocabulary.terminals :=
    allTerminal_iff.mp (by decide)
  have hcap : ({} : Budget).lengthCap 3 = .ok 100 := rfl
  have hcap' : ({} : Budget).lengthCap 2 = .ok 100 := rfl
  obtain ⟨hregular, -⟩ := strategies_agree LinearWalk.backwards {} hterminals hcap
  obtain ⟨-, hfree⟩ := strategies_agree nested {} hterminals' hcap'
  obtain ⟨bound, hbound⟩ := hregular hlevel (by decide)
  obtain ⟨bound', hbound'⟩ := hfree hlevel' (by decide) (by decide)
  refine ⟨⟨hlevel, bound, ?_⟩, hlevel', bound', ?_⟩
  · intro steps hsteps
    exact hbound steps steps steps hsteps hsteps hsteps
  · intro steps hsteps
    exact hbound' steps steps hsteps hsteps

end Grammar

end PhraseStructure
