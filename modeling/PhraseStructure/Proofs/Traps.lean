import Mathlib
import PhraseStructure.Proofs.Soundness
import PhraseStructure.Proofs.StoredTrees

/-!
# The only trap

A machine that stores nodes, items and rules in arrays and counts in 64 bits could be stopped in many places.
This module puts its parts together: the walk, the search and the chart over stored data, and the report of a
chart.  Of all its traps a single one can be sprung, and only at levels 0 and 1: the longest admissible form may
need more than 64 bits.  In every other case the machine gives the answer of this library.

What is assumed is that the machine can be there at all (`Representable`): its ceilings are numbers of 64 bits,
and so are the sizes of what it holds in memory.

## Main definitions

* `StoredChart.answer`, `Grammar.storedAnswer`: the answers of the machine.
* `Representable`: ceilings and sizes fit into 64 bits.
* `Grammar.OverflowsCap`: the longest admissible form needs more.

## Main results

* `Representable.of_sizes`: small caps and few forms within reach are enough for that.
* `Grammar.traps_iff_overflowsCap`: the machine is stopped exactly where the cap overflows.
-/

namespace PhraseStructure

/-! ## The report of a chart -/

namespace StoredItem

variable {rules : List Rule} {x : StoredItem} {item : Item}

/-- An item of the set at position `stop` as one line of text. -/
def text (rules : Array Rule) (stop : Nat) (x : StoredItem) : Checked String := do
  let rule ← Checked.get rules x.rule
  let before ← Checked.before rule.right.toArray x.dot
  let after ← Checked.onward rule.right.toArray x.dot
  let body := if rule.right = [] then "ε •".toList else Text.trim (before ++ " • ".toList ++ after)
  return rule.left.toString ++ " → " ++ String.ofList body ++ s!"  [{x.origin}, {stop}]"

theorem Marks.text (h : Marks rules x item) (stop : Nat) :
    x.text rules.toArray stop = .ok (item.text stop) := by
  have hdot := h.dot_le
  rw [StoredItem.text, h.get, Checked.ok_bind, Checked.before, Checked.onward, h.dot, List.size_toArray,
    if_pos hdot, if_pos hdot, Checked.ok_bind, Checked.ok_bind, h.origin]
  rfl

end StoredItem

theorem Checked.anyM_eq {α β : Type} {R : α → β → Prop} {xs : List α} {ys : List β} {p : α → Checked Bool}
    {q : β → Bool} (hp : ∀ a b, R a b → p a = .ok (q b)) (hxs : List.Forall₂ R xs ys) :
    xs.anyM p = .ok (ys.any q) := by
  induction hxs with
  | nil => rfl
  | @cons a b xs ys hab _ ih =>
    rw [List.anyM, hp a b hab, Checked.ok_bind, List.any_cons]
    cases q b with
    | true => rfl
    | false => exact ih

namespace StoredChart

variable {g : Grammar} {b : Budget} {w : Word} {chart : Chart} {stored : StoredChart}

/-- What a finished chart tells: whether the input is accepted, the completed items at its end, and a tree. -/
def report (stored : StoredChart) (g : Grammar) (b : Budget) (w : Word) : Checked Answer := do
  let last ← Checked.get stored.sets w.length
  let completed ← StoredItem.completed g.rules.toArray last.toList
  let accepted ← completed.anyM fun x => do
    let rule ← Checked.get g.rules.toArray x.rule
    return x.origin = 0 && rule.left = g.start
  let lines ← (completed.take b.completedShown).mapM (StoredItem.text g.rules.toArray w.length)
  let tree ← if accepted then stored.tree? g b.chartSteps w else pure none
  let derivation := (tree.map fun t => t.uses.map Use.text).getD []
  return ⟨⟨accepted, some (.chart lines derivation tree)⟩, []⟩

/-- The answer of a chart over arrays. -/
def answer (g : Grammar) (b : Budget) (w : Word) : Checked Answer := do
  match ← build g b.chartSteps w with
  | none => return ⟨.rejected, [.chartExceeded b.chartSteps]⟩
  | some stored => stored.report g b w

theorem report_eq (h : Holds g.rules w.length stored fun p => chart[p]?.getD .empty)
    (hbuild : Chart.build g b.chartSteps w = some chart) (hsize : chart.size = w.length + 1)
    (hw : w.length < wordLimit) : stored.report g b w = .ok (Chart.answer g b w) := by
  obtain ⟨last, -, hlast, -⟩ := h.exists_set (Nat.le_refl w.length)
  obtain ⟨completed, hcompleted, hmarks⟩ := StoredItem.exists_completed (h.marks hbuild hlast)
  have haccepted : (completed.anyM fun x => do
      let rule ← Checked.get g.rules.toArray x.rule
      return decide (x.origin = 0) && decide (rule.left = g.start)) =
      .ok (chart.accepts g.start w.length) := by
    refine Checked.anyM_eq (fun x item hx => ?_) hmarks
    rw [hx.get, Checked.ok_bind, hx.origin, Checked.pure_eq]
  have hline : ∀ x item, StoredItem.Marks g.rules x item →
      ∃ line, x.text g.rules.toArray w.length = .ok line ∧ line = item.text w.length :=
    fun x item hx => ⟨_, hx.text w.length, rfl⟩
  obtain ⟨lines, hlines, hsame⟩ :=
    Checked.exists_mapM hline (List.forall₂_take b.completedShown hmarks)
  rw [List.forall₂_eq_eq_eq] at hsame
  rw [report, Checked.get_eq_ok hlast, Checked.ok_bind, hcompleted, Checked.ok_bind, haccepted, Checked.ok_bind,
    hlines, Checked.ok_bind, hsame, Chart.answer, hbuild]
  dsimp only
  cases chart.accepts g.start w.length with
  | true =>
    rw [if_pos rfl, tree?_eq h hbuild hsize hw]
    rfl
  | false => rfl

/-- **A chart over arrays** gives the answer of the chart. -/
theorem answer_eq (hfits : Fits g w b.chartSteps) : answer g b w = .ok (Chart.answer g b w) := by
  obtain ⟨result, hbuild, hagrees⟩ := exists_build hfits
  rw [answer, hbuild, Checked.ok_bind]
  cases hchart : Chart.build g b.chartSteps w with
  | none =>
    rw [hchart] at hagrees
    cases hagrees
    rw [Chart.answer, hchart]
    rfl
  | some chart =>
    rw [hchart] at hagrees
    cases hagrees with
    | some h => exact report_eq h.2 hchart h.1 (Nat.lt_of_succ_lt hfits.input)

end StoredChart

/-! ## What fits into 64 bits -/

/-- The machine can be there: its ceilings are numbers of 64 bits, and so are the sizes of what it holds in
memory, the input, the rules and, in a search, the forms that wait at any time. -/
structure Representable (g : Grammar) (b : Budget) (w : Word) : Prop where
  walkSteps : b.walkSteps < wordLimit
  chartSteps : b.chartSteps < wordLimit
  searchSteps : b.searchSteps < wordLimit
  input : w.length + 1 < wordLimit
  rules : ∀ rule ∈ g.rules, rule.right.length < wordLimit
  forms : g.strategy = .search → ∀ cap, FormSearch.cap g b w.length = .ok cap → ∀ k ≤ b.searchSteps,
    (FormSearch.waitingAfter g cap w k).length < wordLimit ∧
      ∀ node ∈ FormSearch.waitingAfter g cap w k, node.form.bytes < wordLimit

theorem Word.bytes_le (w : Word) : w.bytes ≤ 4 * w.length := by
  induction w with
  | nil => exact Nat.zero_le _
  | cons c w ih =>
    have hc := c.utf8Size_le_four
    rw [Word.bytes_cons, List.length_cons]
    omega

theorem length_splits_le (w form : Word) : (splits w form).length ≤ form.length := by
  induction form with
  | nil => exact Nat.le_refl 0
  | cons c form ih =>
    have hhere : ((stripFront w (c :: form)).map fun rest => (([] : Word), rest)).toList.length ≤ 1 :=
      Option.length_toList_le
    rw [splits, List.length_append, List.length_map, List.length_cons]
    omega

theorem Grammar.length_successors_le (g : Grammar) (form : Word) :
    (g.successors form).length ≤ form.length * (allAlternatives g.productions).length := by
  rw [successors, allAlternatives]
  induction g.productions with
  | nil => exact Nat.zero_le _
  | cons p ps ih =>
    have hhere : ((splits p.left form).flatMap fun around => p.alternatives.map fun r =>
        (⟨p.left, r, around.1 ++ r ++ around.2⟩ : PhraseStructure.Step)).length ≤
        form.length * p.alternatives.length := by
      simp only [List.length_flatMap, List.length_map, List.map_const', List.sum_replicate, smul_eq_mul]
      exact Nat.mul_le_mul_right _ (length_splits_le p.left form)
    rw [List.flatMap_cons, List.length_append, List.flatMap_cons, List.length_append, Nat.mul_add]
    exact Nat.add_le_add hhere ih

namespace FormSearch

variable {g : Grammar} {cap : Nat} {visited : List Node} {frontier : Frontier Node Word}

/-- What a search has discovered after some visits: forms that fit the cap, and no more of them than each visit
can lead to. -/
structure Crowd (g : Grammar) (cap : Nat) (visited : List Node) (frontier : Frontier Node Word) : Prop where
  explored : Frontier.Explored Node.form (moves g cap) ⟨[g.start], []⟩ visited frontier
  waiting : frontier.toList.length ≤
    1 + visited.length * (max cap 1 * (allAlternatives g.productions).length)

theorem Crowd.length_le (h : Crowd g cap visited frontier) {node : Node} (hnode : node ∈ frontier.toList) :
    node.form.length ≤ max cap 1 := by
  have hleads := h.explored.leads node (List.mem_append_right _ hnode)
  exact (exists_leads_iff.mp ⟨node, hleads, rfl⟩).length_le

theorem Crowd.visit {node : Node} {rest : Frontier Node Word} (h : Crowd g cap visited frontier)
    (hpop : frontier.pop? = some (node, rest)) :
    Crowd g cap (visited ++ [node]) ((moves g cap node).foldl (Frontier.offer Node.form) rest) := by
  refine ⟨h.explored.visit hpop, ?_⟩
  have hlist := Frontier.toList_of_pop? hpop
  have hlength : node.form.length ≤ max cap 1 := h.length_le (by rw [hlist]; exact List.mem_cons_self)
  have hmoves : (moves g cap node).length ≤ max cap 1 * (allAlternatives g.productions).length := by
    calc (moves g cap node).length
      _ ≤ (g.successors node.form).length := by
        rw [moves, List.length_map]
        exact List.length_filter_le _ _
      _ ≤ node.form.length * (allAlternatives g.productions).length := g.length_successors_le node.form
      _ ≤ max cap 1 * (allAlternatives g.productions).length := Nat.mul_le_mul_right _ hlength
  -- One form has left, and those that come in are among the moves.
  have hnew : (Frontier.newcomers Node.form rest.seen (moves g cap node)).length ≤ (moves g cap node).length :=
    (Frontier.newcomers_sublist _ _).length_le
  have hwaiting := h.waiting
  rw [hlist, List.length_cons] at hwaiting
  rw [Frontier.toList_foldl_offer, List.length_append, List.length_append, List.length_singleton,
    Nat.add_mul, Nat.one_mul]
  omega

/-- How many forms may wait after some steps, and how long they may be. -/
theorem waitingAfter_le (g : Grammar) (cap : Nat) (target : Word) (steps : Nat) :
    (waitingAfter g cap target steps).length ≤
      1 + steps * (max cap 1 * (allAlternatives g.productions).length) ∧
    ∀ node ∈ waitingAfter g cap target steps, node.form.length ≤ max cap 1 := by
  rcases hrun : Frontier.explore Node.form (moves g cap) (fun _ node => finish? target node) Option.isSome
    steps none (.singleton Node.form ⟨[g.start], []⟩) with ⟨left, result, final⟩
  have hstart : Crowd g cap [] (.singleton Node.form ⟨[g.start], []⟩) :=
    ⟨Frontier.explored_singleton _ _ _, Nat.le_add_right 1 _⟩
  obtain ⟨visited, hcrowd, -, hsteps, -⟩ := Frontier.explore_run Crowd.visit hstart hrun
  have hvisited : visited.length ≤ steps := by omega
  rw [waitingAfter, Frontier.waitingAfter, hrun]
  refine ⟨hcrowd.waiting.trans ?_, fun node hnode => hcrowd.length_le hnode⟩
  exact Nat.add_le_add_left (Nat.mul_le_mul_right _ hvisited) 1

end FormSearch

/-- **Ordinary sizes are representable**: in a search it is enough that the cap and the number of forms within
reach are small. -/
theorem Representable.of_sizes {g : Grammar} {b : Budget} {w : Word} (hwalk : b.walkSteps < wordLimit)
    (hchart : b.chartSteps < wordLimit) (hsearch : b.searchSteps < wordLimit) (hinput : w.length + 1 < wordLimit)
    (hrules : ∀ rule ∈ g.rules, rule.right.length < wordLimit)
    (hforms : ∀ cap, FormSearch.cap g b w.length = .ok cap → 4 * max cap 1 < wordLimit ∧
      1 + b.searchSteps * (max cap 1 * (allAlternatives g.productions).length) < wordLimit) :
    Representable g b w := by
  refine ⟨hwalk, hchart, hsearch, hinput, hrules, ?_⟩
  intro _ cap hcap k hk
  obtain ⟨hsize, hcount⟩ := hforms cap hcap
  obtain ⟨hwaiting, hlength⟩ := FormSearch.waitingAfter_le g cap w k
  have hsteps := Nat.mul_le_mul_right (max cap 1 * (allAlternatives g.productions).length) hk
  refine ⟨by omega, fun node hnode => ?_⟩
  have hbytes := node.form.bytes_le
  have hnode := hlength node hnode
  omega

/-! ## All strategies -/

theorem Budget.lengthCap_eq_error_iff {b : Budget} {n : Nat} {overflow : Overflow} :
    b.lengthCap n = .error overflow ↔ wordLimit ≤ b.lengthFactor * n + b.lengthSlack ∧
      overflow = if wordLimit ≤ b.lengthFactor * n then .multiply else .add := by
  unfold lengthCap
  split
  · next hproduct =>
    have hsum : wordLimit ≤ b.lengthFactor * n + b.lengthSlack := Nat.le_add_right_of_le hproduct
    simp [hsum, eq_comm]
  · next hproduct =>
    split
    · next hsum => simp [hsum, eq_comm]
    · next hsum => simp [hsum]

namespace Grammar

variable {g : Grammar} {b : Budget} {w : Word} {input : String} {overflow : Overflow}

/-- The answer of the machine: of the walk, the chart or the search over stored data, whichever fits the level. -/
def storedAnswer (g : Grammar) (b : Budget) (input : String) : Checked Answer :=
  let w := Word.read input
  match w.find? fun c => !g.vocabulary.isTerminal c with
  | some stray => return ⟨.rejected, [.strayInput stray]⟩
  | none =>
    match g.strategy with
    | .walk => LinearWalk.storedAnswer g b w
    | .chart => StoredChart.answer g b w
    | .search => FormSearch.storedAnswer g b w

/-- A word of terminals is searched for, and the longest admissible form on the way needs more than 64 bits. -/
structure OverflowsCap (g : Grammar) (b : Budget) (w : Word) : Prop where
  level : g.level = .unrestricted ∨ g.level = .contextSensitive
  terminals : ∀ c ∈ w, c ∈ g.vocabulary.terminals
  overflows : wordLimit ≤ b.lengthFactor * w.length + b.lengthSlack

/-- **The machine gives the answer of this library**, or is stopped by the overflow that the library reports. -/
theorem storedAnswer_eq (h : Representable g b (Word.read input)) :
    g.storedAnswer b input = (g.answer b input).mapError .overflow := by
  unfold storedAnswer answer answerWord
  dsimp only
  cases (Word.read input).find? fun c => !g.vocabulary.isTerminal c with
  | some stray => rfl
  | none =>
    dsimp only
    cases hstrategy : g.strategy with
    | walk => exact LinearWalk.storedAnswer_eq h.walkSteps (Nat.lt_of_succ_lt h.input)
    | chart => exact StoredChart.answer_eq ⟨h.rules, h.input, h.chartSteps⟩
    | search => exact FormSearch.storedAnswer_eq h.searchSteps (h.forms hstrategy)

theorem strategy_eq_search_iff :
    g.strategy = .search ↔ g.level = .unrestricted ∨ g.level = .contextSensitive := by
  unfold strategy
  cases g.level <;> simp

/-- Of the strategies only the search can fail, and it does so where its cap does. -/
theorem answerBy_eq_error_iff {strategy : Strategy} :
    g.answerBy b w strategy = .error overflow ↔
      strategy = .search ∧ b.lengthCap w.length = .error overflow := by
  cases strategy with
  | walk => simp [answerBy]
  | chart => simp [answerBy]
  | search =>
    unfold answerBy FormSearch.answer FormSearch.cap
    cases b.lengthCap w.length with
    | error overflow' => cases g.level <;> simp [Except.map]
    | ok cap => cases g.level <;> simp [Except.map]

/-- The library reports an overflow where the cap overflows, and nowhere else. -/
theorem answer_eq_error_iff :
    g.answer b input = .error overflow ↔ g.OverflowsCap b (Word.read input) ∧
      overflow = if wordLimit ≤ b.lengthFactor * (Word.read input).length then .multiply else .add := by
  rw [answer]
  generalize Word.read input = w
  by_cases hterminals : ∀ c ∈ w, c ∈ g.vocabulary.terminals
  · rw [answerWord_of_terminals hterminals, answerBy_eq_error_iff, strategy_eq_search_iff,
      Budget.lengthCap_eq_error_iff, ← and_assoc]
    exact and_congr_left fun _ => ⟨fun h => ⟨h.1, hterminals, h.2⟩, fun h => ⟨h.level, h.overflows⟩⟩
  · -- A symbol that is no terminal is found before the cap is asked for.
    obtain ⟨c, hc, hstray⟩ : ∃ c ∈ w, c ∉ g.vocabulary.terminals := by simpa using hterminals
    have hfound : (w.find? fun c => !g.vocabulary.isTerminal c).isSome = true :=
      List.find?_isSome.mpr ⟨c, hc, by
        rw [Bool.not_eq_true', ← Bool.not_eq_true]
        exact mt Vocabulary.isTerminal_iff.mp hstray⟩
    obtain ⟨stray, hstray⟩ := Option.isSome_iff_exists.mp hfound
    rw [answerWord, hstray]
    constructor
    · intro h
      cases h
    · intro h
      exact absurd h.1.terminals hterminals

/-- **The machine is stopped exactly where the cap overflows**, by the product if that is too large already and by
the sum otherwise.  In every other case all look-ups, cuts and sums are in range, and the answer is that of this
library. -/
theorem traps_iff_overflowsCap (input : String) (h : Representable g b (Word.read input)) :
    (∀ trap, g.storedAnswer b input = .error trap ↔ g.OverflowsCap b (Word.read input) ∧
      trap = .overflow (if wordLimit ≤ b.lengthFactor * (Word.read input).length then .multiply else .add)) ∧
    (¬ g.OverflowsCap b (Word.read input) →
      ∃ a, g.storedAnswer b input = .ok a ∧ g.answer b input = .ok a) := by
  rw [storedAnswer_eq h]
  cases hanswer : g.answer b input with
  | error overflow =>
    obtain ⟨hcap, rfl⟩ := answer_eq_error_iff.mp hanswer
    refine ⟨fun trap => ?_, fun hnot => absurd hcap hnot⟩
    rw [and_iff_right hcap, Except.mapError, Except.error.injEq, eq_comm]
  | ok a =>
    have hnot : ¬ g.OverflowsCap b (Word.read input) := by
      intro hcap
      rw [answer_eq_error_iff.mpr ⟨hcap, rfl⟩] at hanswer
      cases hanswer
    refine ⟨fun trap => ?_, fun _ => ⟨a, rfl, rfl⟩⟩
    simp [Except.mapError, hnot]

/-- Two symbols that turn into one. -/
def shrinking : Grammar :=
  (Grammar.ofRules "SAB" "a" [("S", ["AB"]), ("AB", ["a"])] 'S').toOption.get rfl

theorem traps_shrinking :
    shrinking.storedAnswer { lengthFactor := wordLimit / 2 } "aa" = .error (.overflow .multiply) ∧
    shrinking.storedAnswer { lengthSlack := wordLimit - 1 } "a" = .error (.overflow .add) ∧
    ∃ a, shrinking.storedAnswer {} "a" = .ok a ∧ shrinking.answer {} "a" = .ok a := by
  have hlevel : shrinking.level = .unrestricted := by decide
  have hrules : ∀ rule ∈ shrinking.rules, rule.right.length < wordLimit := by decide
  refine ⟨?_, ?_, ?_⟩
  · -- Without a cap nothing is searched, so no form can be too large.
    have h : Representable shrinking { lengthFactor := wordLimit / 2 } ['a', 'a'] :=
      .of_sizes (by decide) (by decide) (by decide) (by decide) hrules (by rintro cap ⟨⟩)
    have hterminals : ∀ c ∈ ['a', 'a'], c ∈ shrinking.vocabulary.terminals :=
      allTerminal_iff.mp (by decide)
    exact ((traps_iff_overflowsCap "aa" h).1 _).mpr ⟨⟨.inl hlevel, hterminals, by decide⟩, by decide⟩
  · have h : Representable shrinking { lengthSlack := wordLimit - 1 } ['a'] :=
      .of_sizes (by decide) (by decide) (by decide) (by decide) hrules (by rintro cap ⟨⟩)
    have hterminals : ∀ c ∈ ['a'], c ∈ shrinking.vocabulary.terminals :=
      allTerminal_iff.mp (by decide)
    exact ((traps_iff_overflowsCap "a" h).1 _).mpr ⟨⟨.inl hlevel, hterminals, by decide⟩, by decide⟩
  · have h : Representable shrinking {} ['a'] := by
      refine .of_sizes (by decide) (by decide) (by decide) (by decide) hrules ?_
      intro cap hcap
      obtain rfl : 100 = cap := Except.ok.inj hcap
      decide
    exact (traps_iff_overflowsCap "a" h).2 fun hcap => absurd hcap.overflows (by decide)

end Grammar

end PhraseStructure
