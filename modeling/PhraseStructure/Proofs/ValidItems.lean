import PhraseStructure.Proofs.Chart

/-!
# What a finished chart holds

An item is *valid* at a position of an input if its two sides fit in: the symbols in front of its dot derive
the input between its origin and the position, and the start symbol derives the input up to the origin,
followed by the left side of the rule and by anything at all.  This is said with derivations alone, without a
chart and without predicting, scanning or completing.  A finished chart for a word of terminals holds exactly
the valid items, each once.

That predicting, scanning and completing only lead to valid items is an induction on how an item came in
(`Charted.exists_context`).  For the converse a derivation of the start symbol is read from left to right
until the left side in question comes up (`Grammar.Exposes`): what is passed on the way are symbols that
yield their part of the input, so the chart has found them, and rules that are under way, so the chart has
predicted them (`Charted.exists_expecting`).

## Main definitions

* `Grammar.Exposes`: reading a form from the left, a symbol comes up behind a word.
* `Item.Valid`: the items that are valid at a position.

## Main results

* `Grammar.RuleDerives.exposes`: what is derived in front of a symbol is yielded before it comes up.
* `charted_iff_valid`: the items that belong into a chart are the valid ones.
* `Chart.finished_chart_holds_valid_items`: a finished chart holds them, and reports the completed ones.
-/

namespace PhraseStructure

variable {g : Grammar} {w u v f f' : Word} {c : Symbol} {p : Nat} {item : Item}

/-! ## What comes up in a form -/

namespace Grammar

/-- Read from the left, a form yields a word, and then a symbol comes up. -/
inductive Exposes (g : Grammar) (c : Symbol) : Word → Word → Prop where
  /-- The symbol comes first. -/
  | here (f : Word) : Exposes g c (c :: f) []
  /-- A terminal is passed. -/
  | terminal {d : Symbol} {f u : Word} :
      d ∈ g.vocabulary.terminals → Exposes g c f u → Exposes g c (d :: f) (d :: u)
  /-- A nonterminal is passed; it yields what a rule makes of it. -/
  | past {rule : Rule} {f u v : Word} : rule ∈ g.rules → rule.left ∈ g.vocabulary.nonterminals →
      g.Yields rule.right u → Exposes g c f v → Exposes g c (rule.left :: f) (u ++ v)
  /-- The symbol comes up inside what a rule makes of a nonterminal. -/
  | inside {rule : Rule} {u : Word} (f : Word) : rule ∈ g.rules →
      rule.left ∈ g.vocabulary.nonterminals → Exposes g c rule.right u →
      Exposes g c (rule.left :: f) u

theorem Exposes.append_right (h : g.Exposes c f u) (f' : Word) : g.Exposes c (f ++ f') u := by
  induction h with
  | here f => exact .here (f ++ f')
  | terminal hd _ ih => exact .terminal hd ih
  | past hrule hleft hright _ ih => exact .past hrule hleft hright ih
  | inside f hrule hleft hright _ => exact .inside (f ++ f') hrule hleft hright

theorem Yields.exposes_append (h : g.Yields f u) (h' : g.Exposes c f' v) :
    g.Exposes c (f ++ f') (u ++ v) := by
  induction h with
  | nil => exact h'
  | terminal hd _ ih => exact .terminal hd ih
  | rule hrule hleft hright _ _ ih =>
    rw [List.append_assoc]
    exact .past hrule hleft hright ih

/-- A symbol comes up in the front of a form, or behind all that the front yields. -/
theorem Exposes.of_append (h : g.Exposes c (f ++ f') w) :
    g.Exposes c f w ∨ ∃ u v, w = u ++ v ∧ g.Yields f u ∧ g.Exposes c f' v := by
  -- The first symbol of the form belongs to the front, or nothing does.
  generalize hform : f ++ f' = form at h
  induction h generalizing f with
  | here form =>
    rcases List.append_eq_cons_iff.mp hform with ⟨rfl, rfl⟩ | ⟨f₁, rfl, rfl⟩
    · exact Or.inr ⟨[], [], rfl, .nil, .here form⟩
    · exact Or.inl (.here f₁)
  | @terminal d form u hd hexposes ih =>
    rcases List.append_eq_cons_iff.mp hform with ⟨rfl, rfl⟩ | ⟨f₁, rfl, rfl⟩
    · exact Or.inr ⟨[], d :: u, rfl, .nil, .terminal hd hexposes⟩
    · rcases ih rfl with hfront | ⟨u, v, rfl, hu, hv⟩
      · exact Or.inl (.terminal hd hfront)
      · exact Or.inr ⟨d :: u, v, rfl, .terminal hd hu, hv⟩
  | @past rule form u v hrule hleft hright hexposes ih =>
    rcases List.append_eq_cons_iff.mp hform with ⟨rfl, rfl⟩ | ⟨f₁, rfl, rfl⟩
    · exact Or.inr ⟨[], u ++ v, rfl, .nil, .past hrule hleft hright hexposes⟩
    · rcases ih rfl with hfront | ⟨v₁, v₂, rfl, hv₁, hv₂⟩
      · exact Or.inl (.past hrule hleft hright hfront)
      · exact Or.inr ⟨u ++ v₁, v₂, by rw [List.append_assoc], .rule hrule hleft hright hv₁, hv₂⟩
  | @inside rule u form hrule hleft hright _ =>
    rcases List.append_eq_cons_iff.mp hform with ⟨rfl, rfl⟩ | ⟨f₁, rfl, rfl⟩
    · exact Or.inr ⟨[], u, rfl, .nil, .inside form hrule hleft hright⟩
    · exact Or.inl (.inside f₁ hrule hleft hright)

/-- Undoing a step does not change what comes up. -/
theorem RuleStep.exposes (h : g.RuleStep f f') (hexposes : g.Exposes c f' w) :
    g.Exposes c f w := by
  obtain ⟨rule, hrule, hleft, before, after, rfl, rfl⟩ := h
  -- The symbol comes up before the right side of the rule, inside it, or behind it.
  rcases hexposes.of_append with hfront | ⟨w₁, w₂, rfl, hw₁, hafter⟩
  · rcases hfront.of_append with hbefore | ⟨w₁, w₂, rfl, hw₁, hright⟩
    · exact (hbefore.append_right _).append_right after
    · exact (hw₁.exposes_append (.inside [] hrule hleft hright)).append_right after
  · obtain ⟨w₁, w₃, rfl, hbefore, hright⟩ := hw₁.exists_append
    exact (hbefore.append (yields_singleton hrule hleft hright)).exposes_append hafter

/-- **What is derived in front of a symbol** is yielded before the symbol comes up. -/
theorem RuleDerives.exposes (hu : ∀ d ∈ u, d ∈ g.vocabulary.terminals)
    (h : g.RuleDerives f (u ++ [c] ++ v)) : g.Exposes c f u := by
  induction h using Relation.ReflTransGen.head_induction_on with
  | refl =>
    rw [List.append_assoc]
    have hexposes := (yields_self hu).exposes_append (.here (c := c) v)
    rwa [List.append_nil] at hexposes
  | head hstep _ ih => exact hstep.exposes ih

end Grammar

/-! ## Valid items -/

/-- An item is valid at a position of an input if its rule can be under way there. -/
structure Item.Valid (g : Grammar) (w : Word) (p : Nat) (item : Item) : Prop where
  /-- The rule is one of the grammar. -/
  rule_mem : item.rule ∈ g.rules
  /-- It replaces a nonterminal. -/
  left_mem : item.rule.left ∈ g.vocabulary.nonterminals
  /-- The dot is in the rule or at its end. -/
  dot_le : item.dot ≤ item.rule.right.length
  /-- The rule began at the position or before it. -/
  origin_le : item.origin ≤ p
  /-- What stands in front of the dot derives the input from the origin to the position. -/
  found : g.RuleDerives (item.rule.right.take item.dot) (w.slice item.origin p)
  /-- The start symbol derives the input up to the origin, then what the rule replaces, then anything. -/
  expected : ∃ x, g.RuleDerives [g.start] (w.take item.origin ++ [item.rule.left] ++ x)

namespace Charted

/-- **The rules that are under way are expected**: the start symbol derives what stands before them and their
left sides. -/
theorem exists_context (h : Charted g w p item) :
    ∃ x, g.RuleDerives [g.start] (w.take item.origin ++ [item.rule.left] ++ x) := by
  induction h with
  | start _ hleft => exact ⟨[], by rw [hleft]; exact .refl⟩
  | @predict p item rule hitem hnext _ _ ih =>
    obtain ⟨x, hx⟩ := ih
    -- The rule of the item is applied, and the front of its right side derives the input up to here.
    have hstep : g.RuleStep [item.rule.left] item.rule.right :=
      ⟨item.rule, hitem.rule_mem, hitem.left_mem, [], [], by simp, by simp⟩
    obtain ⟨back, hright⟩ := Item.exists_right_eq hnext
    have hfound := hitem.yields.ruleDerives.context (w.take item.origin) ([rule.left] ++ back ++ x)
    have hrest : g.RuleDerives (w.take item.origin ++ item.rule.right ++ x)
        (w.take p ++ [rule.left] ++ (back ++ x)) := by
      rw [← w.take_append_slice hitem.origin_le, hright]
      simpa using hfound
    exact ⟨back ++ x, hx.trans (.head (hstep.context _ x) hrest)⟩
  | scan _ _ _ _ ih => exact ih
  | complete _ _ _ _ _ ihw => exact ihw

/-- **What comes up behind an item is expected there**: if the rest of its rule exposes a symbol behind what
the input goes on with, an item has come in that expects the symbol. -/
theorem exists_expecting (hexposes : g.Exposes c f u) (h : Charted g w p item)
    (hrest : item.rest = f) (hu : u <+: w.drop p) :
    ∃ item', Charted g w (p + u.length) item' ∧ item'.next? = some c := by
  -- What is passed has been found; where the symbol comes up inside a rule, the rule has been predicted.
  induction hexposes generalizing item p with
  | here f => exact ⟨item, h, Item.next?_of_rest hrest⟩
  | @terminal d f u hd _ ih =>
    obtain ⟨hinput, hafter⟩ := Word.of_cons_prefix_drop hu
    have hmoved := h.scan_terminal (Item.next?_of_rest hrest) hd hinput
    rw [List.length_cons, Nat.add_comm u.length, ← Nat.add_assoc]
    exact ih hmoved (Item.rest_advance hrest) hafter
  | @past rule f u v hrule hleft hright _ ih =>
    obtain ⟨hpassed, hafter⟩ := Word.of_append_prefix_drop hu
    have hmoved := h.found (Grammar.yields_singleton hrule hleft hright)
      (hrest ▸ List.prefix_append [rule.left] f) hpassed
    rw [List.length_append, ← Nat.add_assoc]
    exact ih hmoved (Item.rest_advance hrest) hafter
  | @inside rule u f hrule hleft _ ih =>
    exact ih (h.predict (Item.next?_of_rest hrest) hleft hrule) rfl hu

/-- A rule begins where the start symbol exposes its left side. -/
theorem of_exposes {rule : Rule} (hrule : rule ∈ g.rules)
    (hleft : rule.left ∈ g.vocabulary.nonterminals) (hp : p ≤ w.length)
    (h : g.Exposes rule.left [g.start] (w.take p)) : Charted g w p ⟨rule, 0, p⟩ := by
  generalize hform : [g.start] = form at h
  generalize htake : w.take p = u at h
  cases h with
  | here f =>
    -- Nothing stands before the start symbol itself, so the position is the front.
    obtain rfl : p = 0 := by
      have hlength := congrArg List.length htake
      rwa [List.length_take_of_le hp] at hlength
    exact .start hrule (List.cons.inj hform).1.symm
  | terminal hd _ =>
    obtain ⟨rfl, -⟩ := List.cons.inj hform
    exact absurd hd (g.vocabulary.disjoint _ g.start_mem)
  | past _ _ _ hexposes =>
    obtain ⟨-, rfl⟩ := List.cons.inj hform
    cases hexposes
  | @inside first _ _ hfirst _ hexposes =>
    obtain ⟨hstart, -⟩ := List.cons.inj hform
    have hbegins : u <+: w.drop 0 := htake ▸ List.take_prefix p w
    obtain ⟨item, hitem, hnext⟩ := exists_expecting hexposes (.start hfirst hstart.symm) rfl hbegins
    rw [Nat.zero_add, ← htake, List.length_take_of_le hp] at hitem
    exact hitem.predict hnext hleft hrule

theorem valid (h : Charted g w p item) : item.Valid g w p where
  rule_mem := h.rule_mem
  left_mem := h.left_mem
  dot_le := h.dot_le
  origin_le := h.origin_le
  found := h.yields.ruleDerives
  expected := h.exists_context

end Charted

theorem Item.Valid.charted (hw : ∀ c ∈ w, c ∈ g.vocabulary.terminals) (hp : p ≤ w.length)
    (h : item.Valid g w p) : Charted g w p item := by
  obtain ⟨rule, dot, origin⟩ := item
  obtain ⟨hrule, hleft, hdot, horigin, hfound, x, hexpected⟩ := h
  dsimp only at hrule hleft hdot horigin hfound hexpected
  -- The rule begins where it is expected; then the dot moves over what the front of the rule has found.
  have hbefore : ∀ c ∈ w.take origin, c ∈ g.vocabulary.terminals := fun c hc =>
    hw c (List.mem_of_mem_take hc)
  have hbegun := Charted.of_exposes hrule hleft (horigin.trans hp) (hexpected.exposes hbefore)
  have hyields : g.Yields (rule.right.take dot) (w.slice origin p) :=
    Grammar.yields_iff.mpr ⟨fun c hc => hw c (Word.mem_of_mem_slice hc), hfound⟩
  have hmoved := hbegun.found hyields (List.take_prefix dot rule.right) (w.slice_isPrefix origin p)
  rwa [Word.length_slice hp, Nat.add_sub_cancel' horigin, List.length_take_of_le hdot,
    Nat.zero_add] at hmoved

/-- **The items that belong into the chart of a word of terminals are the valid ones.** -/
theorem charted_iff_valid (hw : ∀ c ∈ w, c ∈ g.vocabulary.terminals) (hp : p ≤ w.length) :
    Charted g w p item ↔ item.Valid g w p :=
  ⟨Charted.valid, Item.Valid.charted hw hp⟩

/-! ## The finished chart -/

namespace Chart

variable {b : Budget} {chart : Chart}

theorem mem_completedAt_iff_valid {steps : Nat} (hw : ∀ c ∈ w, c ∈ g.vocabulary.terminals)
    (hp : p ≤ w.length) (h : build g steps w = some chart) :
    item ∈ chart.completedAt p ↔ item.Valid g w p ∧ item.dot = item.rule.right.length := by
  rw [completedAt, List.mem_filter, mem_itemsAt_iff h, charted_iff_valid hw hp]
  exact and_congr_right fun hvalid => Item.isComplete_iff_dot_eq hvalid.dot_le

/-- **A finished chart holds exactly the valid items**, at every position and each once.  What is reported is
the beginning of the list of those that are completed at the end of the input, again each once. -/
theorem finished_chart_holds_valid_items (hw : ∀ c ∈ w, c ∈ g.vocabulary.terminals)
    (h : build g b.chartSteps w = some chart) :
    (∀ p ≤ w.length, (chart.itemsAt p).Nodup ∧
      ∀ item, item ∈ chart.itemsAt p ↔ item.Valid g w p) ∧
    (chart.completedAt w.length).Nodup ∧
    (∀ item, item ∈ chart.completedAt w.length ↔
      item.Valid g w w.length ∧ item.dot = item.rule.right.length) ∧
    ∃ derivation tree, (answer g b w).outcome.trace =
      some (.chart (((chart.completedAt w.length).take b.completedShown).map (·.text w.length))
        derivation tree) := by
  refine ⟨fun p hp => ⟨nodup_itemsAt h, fun item => ?_⟩, (nodup_itemsAt h).filter _,
    fun item => mem_completedAt_iff_valid hw le_rfl h, ?_⟩
  · rw [mem_itemsAt_iff h, charted_iff_valid hw hp]
  · obtain ⟨derivation, houtcome⟩ := outcome_of_build h
    exact ⟨derivation, _, congrArg Outcome.trace houtcome⟩

/-- Behind the first of two symbols the rule for two nonterminals is completed already, since the second of
them can be erased; and no single symbol reaches over both. -/
theorem finished_chart_ambiguous :
    (∀ c ∈ ['a', 'a'], c ∈ ambiguous.vocabulary.terminals) ∧
    ∃ chart, build ambiguous ({} : Budget).chartSteps ['a', 'a'] = some chart ∧
      ⟨⟨'S', ['S', 'S']⟩, 2, 0⟩ ∈ chart.itemsAt 1 ∧ ⟨⟨'S', ['a']⟩, 1, 0⟩ ∉ chart.completedAt 2 := by
  have hterminals : ∀ c ∈ ['a', 'a'], c ∈ ambiguous.vocabulary.terminals :=
    List.forall_mem_cons.mpr ⟨by decide, List.forall_mem_singleton.mpr (by decide)⟩
  have hfinished : (build ambiguous ({} : Budget).chartSteps ['a', 'a']).isSome = true := by cbv
  obtain ⟨chart, hbuild⟩ := Option.isSome_iff_exists.mp hfinished
  obtain ⟨hitems, -, hcompleted, -⟩ := finished_chart_holds_valid_items hterminals hbuild
  refine ⟨hterminals, chart, hbuild, ?_, ?_⟩
  · have herase : ambiguous.RuleStep ['S', 'S'] ['S'] :=
      ⟨⟨'S', []⟩, by decide, by decide, ['S'], [], rfl, rfl⟩
    have hread : ambiguous.RuleStep ['S'] ['a'] :=
      ⟨⟨'S', ['a']⟩, by decide, by decide, [], [], rfl, rfl⟩
    exact ((hitems 1 (by decide)).2 _).mpr
      ⟨by decide, by decide, by decide, by decide, .tail (.single herase) hread, [], .refl⟩
  · intro hmem
    have hfound := ((hcompleted _).mp hmem).1.found
    have hyields : ambiguous.Yields ['a'] ['a', 'a'] := Grammar.yields_iff.mpr ⟨hterminals, hfound⟩
    generalize hform : ['a'] = form, hword : ['a', 'a'] = word at hyields
    cases hyields with
    | nil => cases hform
    | terminal _ hrest =>
      obtain ⟨-, rfl⟩ := List.cons.inj hform
      cases hrest
      cases hword
    | rule _ hleft _ _ =>
      obtain ⟨hsymbol, -⟩ := List.cons.inj hform
      exact absurd (hsymbol ▸ hleft) (by decide)

end Chart

end PhraseStructure
