import PhraseStructure.Proofs.Sweep
import PhraseStructure.Recognition

/-!
# A chart decides membership

The sets of a chart are filled from the front of the input to its end.  When the work at a position begins,
the sets before it hold exactly the items that belong there, and the set of the position holds the items to
begin with: the rules of the start symbol at the front, and what was scanned everywhere else.  This is the
invariant `Stage`; finishing a position passes it on to the next one (`Stage.push`).  A finished chart thus
holds the items that belong into it and no others (`mem_itemsAt_iff`), and it accepts what the start symbol
yields (`accepts_iff_yields`).

## Main definitions

* `Chart.Stage`: the state of the work when a position is reached.

## Main results

* `Chart.mem_itemsAt_iff`, `Chart.nodup_itemsAt`: a finished chart holds exactly the items that belong
  into it, each once.
* `Chart.exists_build`: how many steps are enough to finish a chart.
* `Chart.accepts_iff_yields`: a finished chart accepts exactly what the start symbol yields.
* `Chart.chart_decides_membership`: with enough steps a chart decides membership.
-/

namespace PhraseStructure.Chart

variable {g : Grammar} {w : Word} {earlier : Chart} {current : ItemSet} {steps left p : Nat}
  {final : Sweep} {item : Item}

theorem itemsAt_eq_nil (h : earlier.size ≤ p) : itemsAt earlier p = [] := by
  rw [itemsAt, Array.getElem?_eq_none_iff.mpr h]
  rfl

theorem itemsAt_push_of_lt (set : ItemSet) (h : p < earlier.size) :
    itemsAt (earlier.push set) p = itemsAt earlier p := by
  rw [itemsAt, itemsAt, Array.getElem?_push_lt h, Array.getElem?_eq_getElem h]

theorem itemsAt_push_size (earlier : Chart) (set : ItemSet) :
    itemsAt (earlier.push set) earlier.size = set.items.toList := by
  rw [itemsAt, Array.getElem?_push_size]
  rfl

/-! ## From position to position -/

/-- The state of the work when a position is reached: the sets before it are as they should be, and the set
of the position holds the items to begin with. -/
structure Stage (g : Grammar) (w : Word) (earlier : Chart) (current : ItemSet) : Prop where
  /-- The set of the position lists what it knows. -/
  faithful : current.Faithful
  /-- The sets before it list no item twice. -/
  nodup : ∀ p, (itemsAt earlier p).Nodup
  /-- They hold exactly the items that belong there. -/
  mem_iff : ∀ p < earlier.size, ∀ item, item ∈ itemsAt earlier p ↔ Charted g w p item
  /-- What the set of the position holds belongs there. -/
  charted : ∀ item ∈ current.items, Charted g w earlier.size item
  /-- At the front it holds the rules of the start symbol. -/
  started : earlier.size = 0 → ∀ rule ∈ g.rules, rule.left = g.start →
    ⟨rule, 0, 0⟩ ∈ current.items
  /-- Elsewhere it holds what was scanned. -/
  scanned : ∀ p item c, earlier.size = p + 1 → Charted g w p item → item.next? = some c →
    ¬ c ∈ g.vocabulary.nonterminals → w[p]? = some c → item.advance ∈ current.items

namespace Stage

theorem earlier_charted (h : Stage g w earlier current) :
    ∀ p, ∀ item ∈ itemsAt earlier p, Charted g w p item := by
  intro p item hitem
  rcases Nat.lt_or_ge p earlier.size with hlt | hge
  · exact (h.mem_iff p hlt item).mp hitem
  · rw [itemsAt_eq_nil hge] at hitem
    cases hitem

theorem invariant (h : Stage g w earlier current) :
    Sweep.Invariant g w earlier current.items (.start current) where
  current_faithful := h.faithful
  following_faithful := ItemSet.faithful_empty
  kernel_mem _ hitem := hitem
  current_charted := h.charted
  following_charted item hitem := by simp [Sweep.start, ItemSet.empty] at hitem
  handled i item hi := absurd hi (Nat.not_lt_zero i)

/-- **The work at a position gathers exactly the items that belong there.** -/
theorem mem_current_iff (h : Stage g w earlier current)
    (hinv : Sweep.Invariant g w earlier current.items final) (hdone : final.next? = none) :
    item ∈ final.current.items ↔ Charted g w earlier.size item := by
  refine ⟨hinv.current_charted item, ?_⟩
  intro hcharted
  have hclosed := hinv.closed hdone
  -- The induction is on how the item came to belong here; only its last position matters.
  generalize hp : earlier.size = p at hcharted
  induction hcharted with
  | start hrule hleft => exact hinv.kernel_mem _ (h.started hp _ hrule hleft)
  | @predict p item rule _ hnext hleft hrule ih =>
    rw [← hp]
    exact hclosed.predict item (ih hp) rule hrule hnext hleft
  | @scan p item c hitem hnext hc hinput _ =>
    exact hinv.kernel_mem _ (h.scanned p item c hp hitem hnext hc hinput)
  | @complete p item waiting hitem hnone hwaiting hnext ih ihw =>
    refine hclosed.complete item (ih hp) hnone waiting ?_ hnext
    -- The rule began here or in an earlier set, and the earlier sets are complete already.
    by_cases horigin : item.origin = earlier.size
    · rw [Sweep.mem_itemsAt_of_eq horigin]
      exact ihw horigin.symm
    · rw [Sweep.mem_itemsAt_of_ne horigin]
      have hlt : item.origin < earlier.size :=
        lt_of_le_of_ne (hitem.origin_le.trans_eq hp.symm) horigin
      exact (h.mem_iff _ hlt waiting).mpr hwaiting

/-- **Finishing a position** passes the state on to the next one. -/
theorem push (h : Stage g w earlier current)
    (hrun : Sweep.finish g.vocabulary g.rules earlier w[earlier.size]? steps (.start current) =
      some (left, final)) :
    Stage g w (earlier.push final.current) final.following := by
  obtain ⟨hinv, hdone⟩ := h.invariant.finish h.earlier_charted hrun
  -- The set just finished is the only new one; what it has scanned is what the next one begins with.
  refine ⟨hinv.following_faithful, ?_, ?_, ?_, ?_, ?_⟩
  · intro p
    rcases Nat.lt_trichotomy p earlier.size with hlt | rfl | hgt
    · rw [itemsAt_push_of_lt _ hlt]
      exact h.nodup p
    · rw [itemsAt_push_size]
      exact hinv.current_faithful.nodup
    · rw [itemsAt_eq_nil (by rw [Array.size_push]; omega)]
      exact List.nodup_nil
  · intro p hp item
    rw [Array.size_push] at hp
    rcases Nat.lt_succ_iff_lt_or_eq.mp hp with hlt | rfl
    · rw [itemsAt_push_of_lt _ hlt]
      exact h.mem_iff p hlt item
    · rw [itemsAt_push_size, Array.mem_toList_iff]
      exact h.mem_current_iff hinv hdone
  · rw [Array.size_push]
    exact hinv.following_charted
  · intro hzero
    rw [Array.size_push] at hzero
    omega
  · intro p item c hsize hitem hnext hc hinput
    rw [Array.size_push, Nat.add_right_cancel_iff] at hsize
    subst hsize
    have hmem := (h.mem_current_iff hinv hdone).mpr hitem
    exact (hinv.closed hdone).scan item hmem c hnext hc hinput

/-- Behind the end of the input nothing belongs into a chart, so its sets are all there is. -/
theorem mem_itemsAt_iff (h : Stage g w earlier current) (hsize : w.length < earlier.size) :
    item ∈ itemsAt earlier p ↔ Charted g w p item := by
  rcases Nat.lt_or_ge p earlier.size with hlt | hge
  · exact h.mem_iff p hlt item
  · rw [itemsAt_eq_nil hge]
    constructor
    · intro hitem
      cases hitem
    · intro hitem
      have := hitem.le_length
      omega

end Stage

/-- The work begins with the rules of the start symbol. -/
theorem stage_zero (g : Grammar) (w : Word) :
    Stage g w #[] (ItemSet.empty.insertAll (Sweep.predicted g.rules g.start 0)) := by
  have hmem : ∀ item, item ∈ (ItemSet.empty.insertAll (Sweep.predicted g.rules g.start 0)).items ↔
      ∃ rule ∈ g.rules, rule.left = g.start ∧ ⟨rule, 0, 0⟩ = item := by
    intro item
    rw [ItemSet.faithful_empty.mem_insertAll, Sweep.mem_predicted]
    simp [ItemSet.empty]
  refine ⟨ItemSet.faithful_empty.insertAll _, ?_, ?_, ?_, ?_, ?_⟩
  · intro p
    rw [itemsAt_eq_nil (Nat.zero_le p)]
    exact List.nodup_nil
  · intro p hp
    exact absurd hp (Nat.not_lt_zero p)
  · intro item hitem
    obtain ⟨rule, hrule, hleft, rfl⟩ := (hmem item).mp hitem
    exact .start hrule hleft
  · intro _ rule hrule hleft
    exact (hmem _).mpr ⟨rule, hrule, hleft, rfl⟩
  · intro p _ _ hsize
    exact absurd hsize.symm (Nat.succ_ne_zero p)

/-! ## The whole chart -/

theorem getElem?_eq_head?_of_drop {n : Nat} {rest : Word} (h : w.drop n = rest) :
    w[n]? = rest.head? := by
  rw [← h, List.head?_drop]

theorem drop_succ_of_drop {n : Nat} {c : Symbol} {rest : Word} (h : w.drop n = c :: rest) :
    w.drop (n + 1) = rest := by
  rw [← List.drop_drop, h]
  rfl

/-- Filling the sets from a position on ends with all sets as they should be. -/
theorem exists_stage_of_fill {rest : Word} {chart : Chart} (h : Stage g w earlier current)
    (hrest : w.drop earlier.size = rest)
    (hfill : fill g.vocabulary g.rules rest earlier current steps = some chart) :
    ∃ following, Stage g w chart following ∧ w.length < chart.size := by
  induction rest generalizing earlier current steps with
  | nil =>
    rw [fill, Option.map_eq_some_iff] at hfill
    obtain ⟨⟨left, final⟩, hrun, rfl⟩ := hfill
    have hinput : w[earlier.size]? = none := getElem?_eq_head?_of_drop hrest
    refine ⟨final.following, h.push (by rw [hinput]; exact hrun), ?_⟩
    rw [Array.size_push]
    exact Nat.lt_succ_of_le (List.drop_eq_nil_iff.mp hrest)
  | cons c rest ih =>
    rw [fill] at hfill
    split at hfill
    · cases hfill
    · next left final hrun =>
      have hinput : w[earlier.size]? = some c := getElem?_eq_head?_of_drop hrest
      refine ih (h.push (by rw [hinput]; exact hrun)) ?_ hfill
      rw [Array.size_push]
      exact drop_succ_of_drop hrest

/-- One position takes no more sweeps than there can be items, and one more. -/
theorem Stage.exists_finish {m : Nat} (h : Stage g w earlier current)
    (hm : g.dots * (earlier.size + 1) ≤ m) (hsteps : m * (m + 1) ≤ steps) :
    ∃ left final, Sweep.finish g.vocabulary g.rules earlier w[earlier.size]? steps
      (.start current) = some (left, final) ∧ steps ≤ left + m * (m + 1) := by
  have hpotential : Sweep.potential m (.start current) ≤ m * (m + 1) := by
    have hsweeps : (m - current.size + 0) * m ≤ m * m := Nat.mul_le_mul_right m (by omega)
    simp only [Sweep.potential, Sweep.start, Bool.toNat_false, Nat.mul_add, Nat.mul_one]
    omega
  obtain ⟨left, final, hrun, hleft⟩ :=
    h.invariant.exists_finish h.earlier_charted hm (hpotential.trans hsteps)
  exact ⟨left, final, hrun, hleft.trans (Nat.add_le_add_left hpotential left)⟩

/-- Filling the sets from a position on takes no more steps than one position, once for each. -/
theorem exists_fill {rest : Word} {m : Nat} (h : Stage g w earlier current)
    (hrest : w.drop earlier.size = rest) (hm : g.dots * (earlier.size + rest.length + 1) ≤ m)
    (hsteps : (rest.length + 1) * (m * (m + 1)) ≤ steps) :
    ∃ chart, fill g.vocabulary g.rules rest earlier current steps = some chart := by
  induction rest generalizing earlier current steps with
  | nil =>
    rw [List.length_nil, Nat.zero_add, Nat.one_mul] at hsteps
    obtain ⟨left, final, hrun, -⟩ := h.exists_finish hm hsteps
    rw [getElem?_eq_head?_of_drop hrest] at hrun
    exact ⟨earlier.push final.current, by rw [fill]; exact Option.map_eq_some_iff.mpr ⟨_, hrun, rfl⟩⟩
  | cons c rest ih =>
    rw [List.length_cons, Nat.add_mul, Nat.one_mul] at hsteps
    rw [List.length_cons] at hm
    have hhere : g.dots * (earlier.size + 1) ≤ m := le_trans (Nat.mul_le_mul_left _ (by omega)) hm
    have hone : m * (m + 1) ≤ steps := by omega
    obtain ⟨left, final, hrun, hleft⟩ := h.exists_finish hhere hone
    have hnext := h.push hrun
    rw [getElem?_eq_head?_of_drop hrest] at hrun
    have hsize : (earlier.push final.current).size = earlier.size + 1 := Array.size_push _
    have hothers : (rest.length + 1) * (m * (m + 1)) ≤ left := by omega
    obtain ⟨chart, hchart⟩ := ih hnext (by rw [hsize]; exact drop_succ_of_drop hrest)
      (by rw [hsize]; exact le_trans (Nat.mul_le_mul_left _ (by omega)) hm) hothers
    refine ⟨chart, ?_⟩
    rw [fill, show Sweep.finish _ _ _ (some c) _ _ = _ from hrun]
    exact hchart

variable {chart : Chart}

/-- **A finished chart holds exactly the items that belong into it.** -/
theorem mem_itemsAt_iff (h : build g steps w = some chart) :
    item ∈ itemsAt chart p ↔ Charted g w p item := by
  obtain ⟨following, hstage, hsize⟩ := exists_stage_of_fill (stage_zero g w) List.drop_zero h
  exact hstage.mem_itemsAt_iff hsize

/-- A finished chart lists no item twice. -/
theorem nodup_itemsAt (h : build g steps w = some chart) : (itemsAt chart p).Nodup := by
  obtain ⟨following, hstage, -⟩ := exists_stage_of_fill (stage_zero g w) List.drop_zero h
  exact hstage.nodup p

/-- **How many steps are enough**: with room for `m` items in every set, one sweep for each of them and one
more, at each position. -/
theorem exists_build
    (hsteps : (w.length + 1) * (g.dots * (w.length + 1)) * (g.dots * (w.length + 1) + 1) ≤ steps) :
    ∃ chart, build g steps w = some chart := by
  refine exists_fill (stage_zero g w) List.drop_zero (m := g.dots * (w.length + 1)) ?_ ?_
  · rw [Array.size_empty, Nat.zero_add]
  · rwa [← Nat.mul_assoc]

/-! ## Acceptance -/

/-- **A finished chart accepts exactly what the start symbol yields.** -/
theorem accepts_iff_yields (h : build g steps w = some chart) :
    chart.accepts g.start w.length = true ↔ g.Yields [g.start] w := by
  rw [← exists_charted_complete_iff]
  simp only [accepts, completedAt, List.any_eq_true, List.mem_filter, mem_itemsAt_iff h,
    Item.isComplete, Option.isNone_iff_eq_none, Bool.and_eq_true, decide_eq_true_eq, and_assoc]

theorem accepted_answer_iff {b : Budget} :
    (answer g b w).outcome.accepted = true ↔
      ∃ chart, build g b.chartSteps w = some chart ∧ g.Yields [g.start] w := by
  rw [answer]
  cases hbuild : build g b.chartSteps w with
  | none => simp [Outcome.rejected]
  | some chart => simp [← accepts_iff_yields hbuild]

/-- A finished chart is reported with the items completed at the end of the input, accepted or not. -/
theorem outcome_of_build {b : Budget} (h : build g b.chartSteps w = some chart) :
    ∃ derivation, (answer g b w).outcome = ⟨chart.accepts g.start w.length,
      some (.chart (((chart.completedAt w.length).take b.completedShown).map (·.text w.length)) derivation
        (if chart.accepts g.start w.length then chart.tree? g b.chartSteps w else none))⟩ := by
  rw [answer, h]
  exact ⟨_, rfl⟩

/-- **A chart decides membership**: with enough steps it is finished without an event, and it accepts exactly
the words of terminals that the start symbol derives by rules for single nonterminals.  At levels 2 and 3
these are the words of the language. -/
theorem chart_decides_membership {b : Budget}
    (hsteps : (w.length + 1) * (g.dots * (w.length + 1)) * (g.dots * (w.length + 1) + 1) ≤
      b.chartSteps) :
    (∃ chart, build g b.chartSteps w = some chart) ∧ (answer g b w).events = [] ∧
    ((answer g b w).outcome.accepted = true ↔
      (∀ c ∈ w, c ∈ g.vocabulary.terminals) ∧ g.RuleDerives [g.start] w) ∧
    (g.level = .contextFree ∨ g.level = .regular →
      ((answer g b w).outcome.accepted = true ↔ g.Generates w)) := by
  obtain ⟨chart, hbuild⟩ := exists_build hsteps
  have haccepted : (answer g b w).outcome.accepted = true ↔ g.Yields [g.start] w := by
    rw [accepted_answer_iff]
    exact ⟨fun ⟨_, _, h⟩ => h, fun h => ⟨chart, hbuild, h⟩⟩
  refine ⟨⟨chart, hbuild⟩, by rw [answer, hbuild], ?_, ?_⟩
  · rw [haccepted, Grammar.yields_iff]
  · intro hlevel
    rw [haccepted, Grammar.generates_iff_yields hlevel]

/-- Runs of `a`, each in endlessly many ways: the only nonterminal can be erased, begins one of its own
alternatives, and is itself another one. -/
def ambiguous : Grammar :=
  (Grammar.ofRules "S" "a" [("S", ["S", "SS", "ε", "a"])] 'S').toOption.get rfl

theorem chart_decides_ambiguous :
    (1 + 1) * (ambiguous.dots * (1 + 1)) * (ambiguous.dots * (1 + 1) + 1) ≤
      ({} : Budget).chartSteps ∧
    (answer ambiguous {} ['a']).events = [] ∧
    (answer ambiguous {} ['a']).outcome.accepted = true ∧ ambiguous.Generates ['a'] := by
  have hsteps : (1 + 1) * (ambiguous.dots * (1 + 1)) * (ambiguous.dots * (1 + 1) + 1) ≤
      ({} : Budget).chartSteps := by decide
  have hterminals : ∀ c ∈ ['a'], c ∈ ambiguous.vocabulary.terminals :=
    List.forall_mem_singleton.mpr (by decide)
  have hstep : ambiguous.RuleStep ['S'] ['a'] :=
    ⟨⟨'S', ['a']⟩, by decide, by decide, [], [], rfl, rfl⟩
  obtain ⟨-, hevents, hrules, hlanguage⟩ := chart_decides_membership (w := ['a']) hsteps
  have haccepted := hrules.mpr ⟨hterminals, .single hstep⟩
  exact ⟨hsteps, hevents, haccepted, (hlanguage (.inl rfl)).mp haccepted⟩

end PhraseStructure.Chart
