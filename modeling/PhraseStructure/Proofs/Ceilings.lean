import PhraseStructure.Proofs.Agreement
import PhraseStructure.Proofs.ProcessedItems
import PhraseStructure.Proofs.Soundness

/-!
# Raising ceilings

Reaching a ceiling counts as a negative answer, so a higher ceiling may only add to what is accepted and
to what is listed.  The reason is the same for all four loops: a run with a low ceiling is the beginning of
the run with a high one.  The longer run passes through the place where the shorter one stopped, with so
many more steps to go (`Frontier.explore_resume`, `Chart.build_mono`).

Where the shorter run had found a goal, the longer one stops at that very place; so a walk or a search that
accepts tells the same derivation again.  A chart that was finished is the same chart, and accepts again;
nothing is said about its tree, since the attempts at rebuilding one are counted against the same ceiling.
An enumeration goes on where the shorter one had gathered enough, and keeps what it had.

## Main definitions

* `Budget.Raises`: a budget with higher ceilings on the steps and the same bounds on everything else.

## Main results

* `Frontier.explore_resume`: the longer exploration passes through the end of the shorter one.
* `Frontier.search_found_mono`: what was found is found again.
* `Grammar.harvest_isPrefix`: the words gathered first are gathered again, in the same order.
* `Grammar.answers_kept_by_raising`: raising the ceilings never takes an answer away.
-/

namespace PhraseStructure

/-- A budget allows at least as many steps of every kind as another one, and bounds lengths and reports
alike. -/
structure Budget.Raises (b' b : Budget) : Prop where
  walkSteps : b.walkSteps ≤ b'.walkSteps
  chartSteps : b.chartSteps ≤ b'.chartSteps
  searchSteps : b.searchSteps ≤ b'.searchSteps
  enumerationSteps : b.enumerationSteps ≤ b'.enumerationSteps
  lengthFactor : b'.lengthFactor = b.lengthFactor
  lengthSlack : b'.lengthSlack = b.lengthSlack
  lengthFloor : b'.lengthFloor = b.lengthFloor
  enumerationLength : b'.enumerationLength = b.enumerationLength
  completedShown : b'.completedShown = b.completedShown

theorem Budget.Raises.lengthCap_eq {b b' : Budget} (h : b'.Raises b) (n : Nat) :
    b'.lengthCap n = b.lengthCap n := by
  rw [lengthCap, lengthCap, h.lengthFactor, h.lengthSlack, h.lengthFloor]

/-! ## Explorations -/

namespace Frontier

variable {ν κ ω τ : Type} [BEq κ] [Hashable κ] {key : ν → κ} {expand : ν → List ν}
  {gather : ω → ν → ω} {enough enough' : ω → Bool} {steps left : Nat} {gathered result : ω}
  {frontier final : Frontier ν κ}

theorem explore_of_enough (h : enough gathered = true) :
    explore key expand gather enough steps gathered frontier = (steps, gathered, frontier) := by
  cases steps with
  | zero => rfl
  | succ steps => rw [explore, if_pos h]

/-- **The longer exploration passes through the end of the shorter one**: with more steps, and if it is no
easier to satisfy, an exploration goes on from where the shorter one has stopped. -/
theorem explore_resume (henough : ∀ x, enough' x = true → enough x = true)
    (hrun : explore key expand gather enough steps gathered frontier = (left, result, final))
    (extra : Nat) :
    explore key expand gather enough' (steps + extra) gathered frontier =
      explore key expand gather enough' (left + extra) result final := by
  induction steps generalizing gathered frontier with
  | zero =>
    cases hrun
    rfl
  | succ steps ih =>
    rw [explore] at hrun
    by_cases hstop : enough gathered = true
    · rw [if_pos hstop] at hrun
      cases hrun
      rfl
    · rw [if_neg hstop] at hrun
      cases hpop : frontier.pop? with
      | none =>
        rw [hpop] at hrun
        cases hrun
        rfl
      | some popped =>
        obtain ⟨node, rest⟩ := popped
        rw [hpop] at hrun
        -- The first visit is the same for both, since what was not enough for one is not for the other.
        have hgo : ¬ enough' gathered = true := fun h => hstop (henough _ h)
        rw [Nat.add_right_comm, explore, if_neg hgo, hpop]
        exact ih hrun

/-- An exploration only ever adds to what was gathered before. -/
theorem exists_foldl_of_explore (steps : Nat) (gathered : ω) (frontier : Frontier ν κ) :
    ∃ later : List ν, (explore key expand gather enough steps gathered frontier).2.1 =
      later.foldl gather gathered := by
  fun_induction explore key expand gather enough steps gathered frontier with
  | case1 => exact ⟨[], rfl⟩
  | case2 => exact ⟨[], rfl⟩
  | case3 => exact ⟨[], rfl⟩
  | case4 _ _ _ _ node _ _ ih =>
    obtain ⟨later, hlater⟩ := ih
    exact ⟨node :: later, hlater⟩

/-- So the longer exploration adds to what the shorter one has gathered. -/
theorem exists_foldl_of_explore_le {steps' : Nat} (hle : steps ≤ steps')
    (henough : ∀ x, enough' x = true → enough x = true) (gathered : ω) (frontier : Frontier ν κ) :
    ∃ later : List ν, (explore key expand gather enough' steps' gathered frontier).2.1 =
      later.foldl gather (explore key expand gather enough steps gathered frontier).2.1 := by
  obtain ⟨extra, rfl⟩ := Nat.exists_eq_add_of_le hle
  rcases hrun : explore key expand gather enough steps gathered frontier with ⟨left, result, final⟩
  rw [explore_resume henough hrun extra]
  exact exists_foldl_of_explore (left + extra) result final

/-- A search has found what its exploration has gathered. -/
theorem search_eq_found_iff {goal : ν → Option τ} {root : ν} {found : τ} :
    search key expand goal steps root = .found found ↔
      (explore key expand (fun _ node => goal node) Option.isSome steps none
        (singleton key root)).2.1 = some found := by
  unfold search
  split
  · next hrun => simp [hrun]
  · next hrun =>
    split <;> simp [hrun]

/-- What a search finds, it finds again with a higher ceiling. -/
theorem search_found_mono {goal : ν → Option τ} {root : ν} {found : τ} {steps' : Nat}
    (hle : steps ≤ steps') (h : search key expand goal steps root = .found found) :
    search key expand goal steps' root = .found found := by
  obtain ⟨extra, rfl⟩ := Nat.exists_eq_add_of_le hle
  rw [search_eq_found_iff] at h ⊢
  rcases hrun : explore key expand (fun _ node => goal node) Option.isSome steps none
    (singleton key root) with ⟨left, result, final⟩
  rw [hrun] at h
  obtain rfl : result = some found := h
  rw [explore_resume (fun _ h => h) hrun extra, explore_of_enough rfl]

end Frontier

/-! ## Answers -/

variable {g : Grammar} {b b' : Budget} {w : Word} {a : Answer}

theorem LinearWalk.answer_eq_of_raises (hraises : b'.Raises b)
    (h : (answer g b w).outcome.accepted = true) : answer g b' w = answer g b w := by
  obtain ⟨path, hfound⟩ := Verdict.accepted_answer.mp h
  have hfound' := Frontier.search_found_mono hraises.walkSteps hfound
  rw [answer, answer, hfound, search, hfound']
  rfl

theorem Chart.accepted_of_raises (hraises : b'.Raises b)
    (h : (answer g b w).outcome.accepted = true) : (answer g b' w).outcome.accepted = true := by
  obtain ⟨chart, hbuild, hyields⟩ := accepted_answer_iff.mp h
  exact accepted_answer_iff.mpr ⟨chart, build_mono hraises.chartSteps hbuild, hyields⟩

theorem FormSearch.cap_eq_of_raises (hraises : b'.Raises b) (n : Nat) : cap g b' n = cap g b n := by
  rw [cap, cap, hraises.lengthCap_eq]

theorem FormSearch.answer_eq_of_raises (hraises : b'.Raises b) (h : answer g b w = .ok a)
    (haccepted : a.outcome.accepted = true) : answer g b' w = .ok a := by
  obtain ⟨cap, found, hcap, hfound, rfl⟩ := exists_found_of_accepted h haccepted
  have hfound' := Frontier.search_found_mono hraises.searchSteps hfound
  rw [answer_eq_of_cap_eq ((cap_eq_of_raises hraises _).trans hcap), search, hfound']
  rfl

namespace Grammar

/-- **No strategy loses an acceptance to a higher ceiling**, and all but the chart answer as before. -/
theorem answerBy_of_raises {strategy : Strategy} (hraises : b'.Raises b)
    (h : g.answerBy b w strategy = .ok a) (haccepted : a.outcome.accepted = true) :
    ∃ a', g.answerBy b' w strategy = .ok a' ∧ a'.outcome.accepted = true ∧
      (strategy ≠ .chart → a' = a) := by
  cases strategy with
  | walk =>
    cases h
    have heq := LinearWalk.answer_eq_of_raises hraises haccepted
    exact ⟨_, rfl, heq ▸ haccepted, fun _ => heq⟩
  | chart =>
    cases h
    exact ⟨_, rfl, Chart.accepted_of_raises hraises haccepted, fun hne => absurd rfl hne⟩
  | search => exact ⟨a, FormSearch.answer_eq_of_raises hraises h haccepted, haccepted, fun _ => rfl⟩

theorem strategy_eq_chart_iff : g.strategy = .chart ↔ g.level = .contextFree := by
  rw [strategy]
  cases g.level <;> simp

/-! ## Listings -/

/-- **The words gathered first are gathered again**, and in the same order: an enumeration that may take
more steps and is asked for more words goes on with what the other one had. -/
theorem harvest_isPrefix (hraises : b'.Raises b) {n m : Nat} (hle : n ≤ m) :
    (g.harvest b n).2.toList <+: (g.harvest b' m).2.toList := by
  have henough : ∀ words : Array Word, decide (m ≤ words.size) = true →
      decide (n ≤ words.size) = true := by
    intro words h
    exact decide_eq_true (hle.trans (of_decide_eq_true h))
  simp only [harvest, hraises.enumerationLength]
  obtain ⟨later, hlater⟩ := Frontier.exists_foldl_of_explore_le hraises.enumerationSteps henough #[]
    (Frontier.singleton id [g.start])
  rw [hlater, foldl_push_eq]
  exact List.prefix_append _ _

theorem mem_enumerate_iff {n : Nat} : w ∈ (g.enumerate b n).1 ↔ w ∈ (g.harvest b n).2.toList := by
  rw [enumerate, List.mem_mergeSort]

/-- **Raising the ceilings never takes an answer away.**  A text that is accepted stays accepted, with the
same derivation except at level 2, and a longer listing holds the words of a shorter one. -/
theorem answers_kept_by_raising (g : Grammar) {b b' : Budget} (hraises : b'.Raises b) :
    (∀ input a, g.answer b input = .ok a → a.outcome.accepted = true →
      ∃ a', g.answer b' input = .ok a' ∧ a'.outcome.accepted = true ∧
        (g.level ≠ .contextFree → a'.outcome.trace = a.outcome.trace)) ∧
    (∀ n m, n ≤ m → ∀ w ∈ (g.enumerate b n).1, w ∈ (g.enumerate b' m).1) := by
  constructor
  · intro input a h haccepted
    rw [answer] at h
    rcases answerWord_cases h with hrejected | ⟨hterminals, h⟩
    · rw [hrejected] at haccepted
      cases haccepted
    · obtain ⟨a', ha', haccepted', hsame⟩ := answerBy_of_raises hraises h haccepted
      refine ⟨a', by rw [answer, answerWord_of_terminals hterminals, ha'], haccepted', ?_⟩
      intro hlevel
      rw [hsame (mt strategy_eq_chart_iff.mp hlevel)]
  · intro n m hle w hw
    rw [mem_enumerate_iff] at hw ⊢
    exact (harvest_isPrefix hraises hle).subset hw

/-- A budget that is ample for the word of the thirteen symbols. -/
def AnyOrder.ample : Budget where
  walkSteps := anyOrder.ampleSteps 13 AnyOrder.word
  chartSteps := anyOrder.ampleSteps 13 AnyOrder.word
  searchSteps := anyOrder.ampleSteps 13 AnyOrder.word

/-- A budget with more steps for searches and enumerations. -/
def AnyOrder.more : Budget :=
  { ample with searchSteps := 2 * ample.searchSteps, enumerationSteps := 2 * ample.enumerationSteps }

theorem answers_kept_anyOrder :
    AnyOrder.more.Raises AnyOrder.ample ∧ anyOrder.Accepts AnyOrder.ample AnyOrder.word.shown ∧
    anyOrder.Accepts AnyOrder.more AnyOrder.word.shown ∧
    AnyOrder.word ∈ (anyOrder.enumerate AnyOrder.more 2).1 := by
  have hraises : AnyOrder.more.Raises AnyOrder.ample := by
    refine ⟨le_rfl, le_rfl, ?_, ?_, rfl, rfl, rfl, rfl, rfl⟩
    · exact Nat.le_mul_of_pos_left _ Nat.two_pos
    · exact Nat.le_mul_of_pos_left _ Nat.two_pos
  have hcap : FormSearch.cap anyOrder AnyOrder.ample AnyOrder.word.length = .ok 13 := by decide
  have hterminals : ∀ c ∈ AnyOrder.word, c ∈ anyOrder.vocabulary.terminals :=
    allTerminal_iff.mp (by decide)
  have hmixed : AnyOrder.Mixed AnyOrder.word := fun c hc => Or.inr (List.eq_of_mem_replicate hc)
  have hwithin : anyOrder.DerivesWithin 13 ['S'] AnyOrder.word :=
    (derivesWithin_iff_derives (by decide)).mpr (AnyOrder.derives_start hmixed rfl)
  obtain ⟨a, ha, haccepted⟩ : anyOrder.Accepts AnyOrder.ample AnyOrder.word.shown :=
    accepts_of_ampleSteps hterminals hcap hwithin le_rfl le_rfl le_rfl
  obtain ⟨hanswers, hlistings⟩ := answers_kept_by_raising anyOrder hraises
  obtain ⟨a', ha', haccepted', -⟩ := hanswers _ a ha haccepted
  exact ⟨hraises, ⟨a, ha, haccepted⟩, ⟨a', ha', haccepted'⟩,
    hlistings 1 2 (Nat.le_succ 1) _ AnyOrder.word_mem_enumerate⟩

end Grammar

end PhraseStructure
