import PhraseStructure.Proofs.Chart

/-!
# The items that are processed

Filling a chart takes one step for every item that is processed.  Which items these are, and in which order,
does not depend on the ceiling: the ceiling only decides whether the work gets to their end.  So the number
of steps that an input needs is the length of a list (`Sweep.Processes`, `Chart.Fills`), and the work with a
ceiling is finished exactly if the list is no longer than the ceiling (`Chart.Builds.build_eq`).

An item can be processed several times, namely when its set is swept again.  This happens only after a
completion that spans nothing.  If no alternative is empty, every symbol yields a part of the input, so a
complete item began before its position (`Charted.origin_lt`) and no set is swept twice.  Then the items
processed at a position are those of its finished set, one after another: the sweep passes the items that are
there and those that come in behind them (`Sweep.Processes.items_eq`).

## Main definitions

* `Sweep.Processes`, `Chart.Fills`, `Chart.Builds`: the items processed at one position, from a position on,
  and for a whole input.
* `Chart.allItems`, `Chart.count`: the items of all positions, and how many there are.

## Main results

* `Sweep.Processes.finish_eq`, `Chart.Builds.build_eq`: how a ceiling decides whether the work is finished.
* `Sweep.Processes.items_eq`, `Chart.Builds.items_eq`: without empty alternatives the items processed are
  those of the chart.
* `Chart.each_item_takes_one_step`: without empty alternatives a chart takes as many steps as it has items.
-/

namespace PhraseStructure

variable {g : Grammar} {w f u : Word} {p steps left : Nat} {item : Item} {items : List Item}

/-! ## At one position -/

namespace Sweep

variable {v : Vocabulary} {rules : List Rule} {earlier : Chart} {input : Option Symbol}
  {s final : Sweep}

/-- The items that are processed one after another until none is left. -/
inductive Processes (v : Vocabulary) (rules : List Rule) (earlier : Chart) (input : Option Symbol) :
    Sweep → List Item → Sweep → Prop where
  /-- No item is left. -/
  | done {s : Sweep} : s.next? = none → Processes v rules earlier input s [] s
  /-- The next item is processed, and then the others. -/
  | step {s s' final : Sweep} {item : Item} {items : List Item} : s.next? = some (item, s') →
      Processes v rules earlier input (process v rules earlier input s' item) items final →
      Processes v rules earlier input s (item :: items) final

/-- **The work at a position is finished if the ceiling leaves a step for every item.** -/
theorem Processes.finish_eq (h : Processes v rules earlier input s items final) (steps : Nat) :
    finish v rules earlier input steps s =
      if items.length ≤ steps then some (steps - items.length, final) else none := by
  induction h generalizing steps with
  | done hnext => exact finish_of_next?_eq_none hnext steps
  | step hnext _ ih =>
    cases steps with
    | zero =>
      rw [finish, hnext]
      rfl
    | succ steps =>
      rw [finish, hnext]
      simpa using ih steps

theorem exists_processes (h : finish v rules earlier input steps s = some (left, final)) :
    ∃ items, Processes v rules earlier input s items final := by
  induction steps generalizing s with
  | zero =>
    rw [finish] at h
    split at h
    · next hnext =>
      cases h
      exact ⟨[], .done hnext⟩
    · cases h
  | succ steps ih =>
    rw [finish] at h
    split at h
    · next hnext =>
      cases h
      exact ⟨[], .done hnext⟩
    · next item s' hnext =>
      obtain ⟨items, hitems⟩ := ih h
      exact ⟨item :: items, .step hnext hitems⟩

end Sweep

/-! ## From position to position -/

namespace Chart

variable {v : Vocabulary} {rules : List Rule} {rest : Word} {earlier chart : Chart} {current : ItemSet}

/-- The items that are processed from a position to the end of the input, and the chart that comes out. -/
inductive Fills (v : Vocabulary) (rules : List Rule) :
    Word → Chart → ItemSet → List Item → Chart → Prop where
  /-- The position is the end of the input. -/
  | last {earlier : Chart} {current : ItemSet} {items : List Item} {final : Sweep} :
      Sweep.Processes v rules earlier none (.start current) items final →
      Fills v rules [] earlier current items (earlier.push final.current)
  /-- The position is followed by another one. -/
  | next {c : Symbol} {rest : Word} {earlier chart : Chart} {current : ItemSet}
      {items later : List Item} {final : Sweep} :
      Sweep.Processes v rules earlier (some c) (.start current) items final →
      Fills v rules rest (earlier.push final.current) final.following later chart →
      Fills v rules (c :: rest) earlier current (items ++ later) chart

/-- The work at all positions shares one ceiling. -/
theorem Fills.fill_eq (h : Fills v rules rest earlier current items chart) (steps : Nat) :
    fill v rules rest earlier current steps = if items.length ≤ steps then some chart else none := by
  induction h generalizing steps with
  | last hrun =>
    rw [fill, hrun.finish_eq]
    split <;> rfl
  | @next c rest earlier chart current items later final hrun _ ih =>
    rw [fill, hrun.finish_eq, List.length_append]
    -- What the first position leaves of the ceiling is the ceiling for the others.
    by_cases hitems : items.length ≤ steps
    · rw [if_pos hitems]
      dsimp only
      rw [ih]
      exact if_congr (by omega) rfl rfl
    · rw [if_neg hitems, if_neg (by omega)]

theorem exists_fills (h : fill v rules rest earlier current steps = some chart) :
    ∃ items, Fills v rules rest earlier current items chart := by
  induction rest generalizing earlier current steps with
  | nil =>
    rw [fill, Option.map_eq_some_iff] at h
    obtain ⟨⟨left, final⟩, hrun, rfl⟩ := h
    obtain ⟨items, hitems⟩ := Sweep.exists_processes hrun
    exact ⟨items, .last hitems⟩
  | cons c rest ih =>
    rw [fill] at h
    split at h
    · cases h
    · next left final hrun =>
      obtain ⟨items, hitems⟩ := Sweep.exists_processes hrun
      obtain ⟨later, hlater⟩ := ih h
      exact ⟨items ++ later, .next hitems hlater⟩

/-! ## The whole chart -/

/-- The items that are processed for an input, and its chart. -/
def Builds (g : Grammar) (w : Word) (items : List Item) (chart : Chart) : Prop :=
  Fills g.vocabulary g.rules w #[] (ItemSet.empty.insertAll (Sweep.predicted g.rules g.start 0)) items
    chart

/-- **A chart is finished if the ceiling leaves a step for every item that is processed.** -/
theorem Builds.build_eq (h : Builds g w items chart) (steps : Nat) :
    build g steps w = if items.length ≤ steps then some chart else none :=
  h.fill_eq steps

theorem exists_builds_of_build (h : build g steps w = some chart) : ∃ items, Builds g w items chart :=
  exists_fills h

/-- The work comes to an end for every input. -/
theorem exists_builds (g : Grammar) (w : Word) : ∃ items chart, Builds g w items chart := by
  obtain ⟨chart, hbuild⟩ := exists_build (g := g) (w := w) le_rfl
  obtain ⟨items, hitems⟩ := exists_builds_of_build hbuild
  exact ⟨items, chart, hitems⟩

/-- A chart that is finished is the same with a higher ceiling. -/
theorem build_mono {steps' : Nat} (hle : steps ≤ steps') (h : build g steps w = some chart) :
    build g steps' w = some chart := by
  obtain ⟨items, hitems⟩ := exists_builds_of_build h
  rw [hitems.build_eq, Option.ite_none_right_eq_some] at h ⊢
  exact ⟨h.1.trans hle, h.2⟩

end Chart

/-! ## Without empty alternatives -/

theorem Grammar.right_ne_nil (hnonempty : ∀ p ∈ g.productions, [] ∉ p.alternatives) {rule : Rule}
    (hrule : rule ∈ g.rules) : rule.right ≠ [] := by
  obtain ⟨q, hq, -, hright⟩ := mem_alternatives.mp (mem_rules.mp hrule)
  exact fun hnil => hnonempty q hq (hnil ▸ hright)

/-- Every symbol of a form yields a symbol at least. -/
theorem Grammar.Yields.length_le (hnonempty : ∀ p ∈ g.productions, [] ∉ p.alternatives)
    (h : g.Yields f u) : f.length ≤ u.length := by
  induction h with
  | nil => exact le_rfl
  | terminal _ _ ih => exact Nat.succ_le_succ ih
  | @rule rule f u v hrule _ _ _ ihu ihv =>
    have hpos := List.length_pos_of_ne_nil (right_ne_nil hnonempty hrule)
    rw [List.length_cons, List.length_append]
    omega

/-- **Without empty alternatives no completion spans nothing.** -/
theorem Charted.origin_lt (hnonempty : ∀ p ∈ g.productions, [] ∉ p.alternatives)
    (h : Charted g w p item) (hnone : item.next? = none) : item.origin < p := by
  have hpos := List.length_pos_of_ne_nil (Grammar.right_ne_nil hnonempty h.rule_mem)
  have hyields := h.yields
  rw [Item.take_of_next?_eq_none hnone] at hyields
  have hlength := hyields.length_le hnonempty
  have hspan : (w.slice item.origin p).length ≤ p - item.origin := List.length_take_le _ _
  omega

namespace Sweep

variable {earlier : Chart} {input : Option Symbol} {s final : Sweep} {kernel : Array Item}

/-- So none is ever noted. -/
theorem nullable_process (hnonempty : ∀ p ∈ g.productions, [] ∉ p.alternatives)
    (hitem : Charted g w earlier.size item) :
    (process g.vocabulary g.rules earlier input s item).nullable = s.nullable := by
  rcases process_cases g earlier input s item with
    ⟨c, -, -, h⟩ | ⟨c, -, -, -, h⟩ | ⟨c, -, -, -, h⟩ | ⟨hnone, h⟩
  · rw [h]
    rfl
  · rw [h]
  · rw [h]
  · rw [h]
    simp [add, (hitem.origin_lt hnonempty hnone).ne]

/-- Items keep their places while others are processed. -/
theorem Processes.isPrefix (hearlier : ∀ q, ∀ item ∈ Chart.itemsAt earlier q, Charted g w q item)
    (hinv : Invariant g w earlier kernel s)
    (h : Processes g.vocabulary g.rules earlier w[earlier.size]? s items final) :
    s.current.items.toList <+: final.current.items.toList := by
  induction h with
  | done _ => exact List.prefix_refl _
  | @step s s' final item items hnext _ ih =>
    obtain ⟨hcurrent, hfollowing, -⟩ := hinv.next hnext
    have hext := process_extends g earlier w[earlier.size]? s' item
      (hfollowing ▸ hinv.following_faithful)
    rw [← hcurrent]
    exact hext.current.trans (ih (hinv.step hearlier hnext))

/-- **Without empty alternatives the items processed are those of the finished set**, from the place in the
sweep on, in their order and each once. -/
theorem Processes.items_eq (hnonempty : ∀ p ∈ g.productions, [] ∉ p.alternatives)
    (hearlier : ∀ q, ∀ item ∈ Chart.itemsAt earlier q, Charted g w q item)
    (hinv : Invariant g w earlier kernel s) (hnullable : s.nullable = false)
    (h : Processes g.vocabulary g.rules earlier w[earlier.size]? s items final) :
    items = final.current.items.toList.drop s.index := by
  -- The induction is on the items processed; nothing is noted, so the sweep never begins again.
  induction h with
  | @done s hnext =>
    have hover := Array.getElem?_eq_none_iff.mp (of_next?_eq_none hnext).1
    exact (List.drop_eq_nil_of_le hover).symm
  | @step s s' final item items hnext hrun ih =>
    rcases next?_cases hnext with ⟨hitem, rfl⟩ | ⟨-, -, hnoted, -, -⟩
    · have hcharted := hinv.current_charted item (Array.mem_of_getElem? hitem)
      have hext := process_extends g earlier w[earlier.size]? { s with index := s.index + 1 } item
        hinv.following_faithful
      have hitems :=
        ih (hinv.step hearlier hnext) ((nullable_process hnonempty hcharted).trans hnullable)
      -- The item is still at its place in the finished set, and the others are those behind it.
      have hplace : final.current.items.toList[s.index]? = some item := by
        obtain ⟨later, hlater⟩ :=
          hext.current.trans (hrun.isPrefix hearlier (hinv.step hearlier hnext))
        rw [← Array.getElem?_toList] at hitem
        rw [← hlater]
        exact List.getElem?_append_left (List.getElem?_eq_some_iff.mp hitem).1 ▸ hitem
      rw [List.drop_eq_getElem?_toList_append, hplace, hitems, hext.index]
      rfl
    · rw [hnullable] at hnoted
      cases hnoted

end Sweep

namespace Chart

variable {earlier chart : Chart} {current : ItemSet} {rest : Word}

/-- The items of all positions, position by position. -/
def allItems (chart : Chart) : List Item :=
  chart.toList.flatMap fun set => set.items.toList

/-- How many items there are, all positions together. -/
def count (chart : Chart) : Nat :=
  (chart.toList.map ItemSet.size).sum

theorem length_allItems (chart : Chart) : chart.allItems.length = chart.count := by
  rw [allItems, List.length_flatMap]
  rfl

theorem allItems_push (earlier : Chart) (set : ItemSet) :
    allItems (earlier.push set) = allItems earlier ++ set.items.toList := by
  simp [allItems]

/-- **Without empty alternatives the items processed are those that come into the chart**, position by
position. -/
theorem Fills.items_eq (hnonempty : ∀ p ∈ g.productions, [] ∉ p.alternatives)
    (hstage : Stage g w earlier current) (hrest : w.drop earlier.size = rest)
    (h : Fills g.vocabulary g.rules rest earlier current items chart) :
    chart.allItems = earlier.allItems ++ items := by
  -- The induction is on the positions; the state of the work is passed on from each to the next.
  induction h with
  | @last earlier current items final hrun =>
    have hinput : w[earlier.size]? = none := getElem?_eq_head?_of_drop hrest
    rw [← hinput] at hrun
    have hitems := hrun.items_eq hnonempty hstage.earlier_charted hstage.invariant rfl
    rw [allItems_push, hitems]
    rfl
  | @next c rest earlier chart current items later final hrun _ ih =>
    have hinput : w[earlier.size]? = some c := getElem?_eq_head?_of_drop hrest
    rw [← hinput] at hrun
    have hitems := hrun.items_eq hnonempty hstage.earlier_charted hstage.invariant rfl
    have hfinish := hrun.finish_eq items.length
    rw [if_pos le_rfl] at hfinish
    rw [ih (hstage.push hfinish) (by rw [Array.size_push]; exact drop_succ_of_drop hrest), allItems_push,
      List.append_assoc, hitems]
    rfl

theorem Builds.items_eq (hnonempty : ∀ p ∈ g.productions, [] ∉ p.alternatives)
    (h : Builds g w items chart) : items = chart.allItems :=
  (Fills.items_eq hnonempty (stage_zero g w) List.drop_zero h).symm

/-- **Without empty alternatives every item of a chart takes one step.**  The chart that comes out without a
ceiling lists no item of a position twice, its items are processed one after another, and so a ceiling lets
it be finished exactly if it allows as many steps as there are items.  Then the acceptance and the items
reported do not depend on the ceiling; with a lower one the answer is a bare rejection. -/
theorem each_item_takes_one_step (hnonempty : ∀ p ∈ g.productions, [] ∉ p.alternatives) (w : Word) :
    ∃ chart : Chart, (∃ enough, ∀ steps, enough ≤ steps → build g steps w = some chart) ∧
      (∀ p, (chart.itemsAt p).Nodup) ∧ Builds g w chart.allItems chart ∧
      (∀ steps, (∃ finished, build g steps w = some finished) ↔ chart.count ≤ steps) ∧
      (∀ b b' : Budget, chart.count ≤ b.chartSteps → b.chartSteps ≤ b'.chartSteps →
        b'.completedShown = b.completedShown →
        ∃ accepted completed derivation tree derivation' tree',
          (answer g b w).outcome = ⟨accepted, some (.chart completed derivation tree)⟩ ∧
          (answer g b' w).outcome = ⟨accepted, some (.chart completed derivation' tree')⟩) ∧
      ∀ b : Budget, b.chartSteps < chart.count → (answer g b w).outcome = .rejected := by
  obtain ⟨items, chart, hbuilds⟩ := exists_builds g w
  obtain rfl := hbuilds.items_eq hnonempty
  have hbuild : ∀ steps, build g steps w = if chart.count ≤ steps then some chart else none := by
    intro steps
    rw [hbuilds.build_eq, length_allItems]
  have hfinished : ∀ steps, chart.count ≤ steps → build g steps w = some chart := by
    intro steps hle
    rw [hbuild, if_pos hle]
  refine ⟨chart, ⟨chart.count, hfinished⟩, fun p => nodup_itemsAt (hfinished _ le_rfl), hbuilds, ?_, ?_, ?_⟩
  · intro steps
    simp [hbuild]
  · intro b b' hle hraised hshown
    obtain ⟨derivation, houtcome⟩ := outcome_of_build (hfinished b.chartSteps hle)
    obtain ⟨derivation', houtcome'⟩ :=
      outcome_of_build (hfinished b'.chartSteps (hle.trans hraised))
    rw [hshown] at houtcome'
    exact ⟨_, _, derivation, _, derivation', _, houtcome, houtcome'⟩
  · intro b hlt
    rw [answer, hbuild, if_neg (Nat.not_le.mpr hlt)]

/-- Sums of one or more summands, with a left-recursive rule and two nonterminals that are each other. -/
def sums : Grammar :=
  (Grammar.ofRules "SE" "n+" [("S", ["E"]), ("E", ["E+n", "n", "S"])] 'S').toOption.get rfl

/-- In a sum of two, four items stand at the front and behind each summand, and one behind the sign. -/
theorem each_item_takes_one_step_sums :
    (∀ p ∈ sums.productions, [] ∉ p.alternatives) ∧
    ∃ chart : Chart, Builds sums ['n', '+', 'n'] chart.allItems chart ∧ chart.count = 4 + 4 + 1 + 4 ∧
      ∀ b : Budget, b.chartSteps < 13 → (answer sums b ['n', '+', 'n']).outcome = .rejected := by
  have hnonempty : ∀ p ∈ sums.productions, [] ∉ p.alternatives := by decide
  obtain ⟨chart, -, -, hbuilds, hfinished, -, hrejected⟩ :=
    each_item_takes_one_step hnonempty ['n', '+', 'n']
  have henough : (build sums 13 ['n', '+', 'n']).isSome = true := by cbv
  have hshort : build sums 12 ['n', '+', 'n'] = none := by cbv
  have hle : chart.count ≤ 13 := (hfinished 13).mp (Option.isSome_iff_exists.mp henough)
  have hlt : ¬ chart.count ≤ 12 := by
    intro hle
    obtain ⟨finished, hbuild⟩ := (hfinished 12).mpr hle
    cases hshort.symm.trans hbuild
  have hcount : chart.count = 13 := by omega
  exact ⟨hnonempty, chart, hbuilds, hcount, fun b hb => hrejected b (hcount ▸ hb)⟩

end Chart

end PhraseStructure
