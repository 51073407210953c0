import PhraseStructure.Proofs.ChartItems

/-!
# The sweeps over one position of a chart

The set of items at a position is swept until it is closed: whatever its items predict, scan or complete is
there.  A sweep visits all items of the set, also those that come in during the sweep, so each item of a
finished set has been *handled* in the last sweep.  Being handled lasts, with one exception.  A completion
that began at this very position moves the items waiting in the set *as it then was*; an item that comes in
later may wait for the same symbol.  But then the set has grown and the completion was noted, so that this
was not the last sweep.  `Handled` therefore promises such a completion only for a set that did not grow,
and the promise is enough at the end (`Invariant.closed`).

The length of the work follows from a potential that every step lowers (`Invariant.potential_lt`): what is
left of the current sweep, and a whole sweep for every item that may still come in.

## Main definitions

* `ItemSet.Faithful`: a set lists the items it knows, each once.
* `Sweep.Extends`: what processing an item may change.
* `Sweep.Handled`: an item whose consequences are there.
* `Sweep.Invariant`, `Sweep.Closed`: the state of the work during the sweeps, and at their end.
* `Sweep.potential`: how many steps may still follow.

## Main results

* `Sweep.Invariant.step`, `Sweep.Invariant.finish`: one step and all sweeps together keep the invariant.
* `Sweep.Invariant.closed`: when nothing is left to process, the set is closed.
* `Sweep.Invariant.exists_finish`: the sweeps end within their potential.
-/

namespace PhraseStructure

/-! ## Sets of items -/

namespace ItemSet

variable {set : ItemSet} {item x : Item} {items : List Item}

/-- The items known are the items listed, and none is listed twice. -/
structure Faithful (set : ItemSet) : Prop where
  /-- The items known are the items listed. -/
  mem_seen : ∀ item, item ∈ set.seen ↔ item ∈ set.items
  /-- No item is listed twice. -/
  nodup : set.items.toList.Nodup

theorem faithful_empty : empty.Faithful where
  mem_seen item := by simp [empty]
  nodup := List.nodup_nil

theorem items_insert_prefix (set : ItemSet) (item : Item) :
    set.items.toList <+: (set.insert item).items.toList := by
  rw [insert]
  split
  · exact List.prefix_refl _
  · rw [Array.toList_push]
    exact List.prefix_append _ _

theorem Faithful.mem_insert (h : set.Faithful) :
    x ∈ (set.insert item).items ↔ x ∈ set.items ∨ x = item := by
  rw [insert]
  split
  · next hseen =>
    have hitem : item ∈ set.items := (h.mem_seen item).mp hseen
    constructor
    · exact Or.inl
    · rintro (hx | rfl)
      · exact hx
      · exact hitem
  · exact Array.mem_push

theorem Faithful.insert (h : set.Faithful) (item : Item) : (set.insert item).Faithful := by
  rw [ItemSet.insert]
  split
  · exact h
  · next hseen =>
    have hitem : item ∉ set.items := fun hmem => hseen ((h.mem_seen item).mpr hmem)
    refine ⟨?_, ?_⟩
    · intro x
      rw [Std.HashSet.mem_insert, beq_iff_eq, Array.mem_push, h.mem_seen, eq_comm, or_comm]
    · rw [Array.toList_push]
      refine List.nodup_append.mpr ⟨h.nodup, List.nodup_singleton _, ?_⟩
      rintro a ha b hb rfl
      exact hitem (List.mem_singleton.mp hb ▸ Array.mem_toList_iff.mp ha)

theorem items_insertAll_prefix (set : ItemSet) (items : List Item) :
    set.items.toList <+: (set.insertAll items).items.toList := by
  induction items generalizing set with
  | nil => exact List.prefix_refl _
  | cons item items ih => exact (set.items_insert_prefix item).trans (ih _)

theorem Faithful.insertAll (h : set.Faithful) (items : List Item) :
    (set.insertAll items).Faithful := by
  induction items generalizing set with
  | nil => exact h
  | cons item items ih => exact ih (h.insert item)

theorem Faithful.mem_insertAll (h : set.Faithful) :
    x ∈ (set.insertAll items).items ↔ x ∈ set.items ∨ x ∈ items := by
  induction items generalizing set with
  | nil => simp [ItemSet.insertAll]
  | cons item items ih =>
    have hrest := ih (h.insert item)
    rw [h.mem_insert, or_assoc, ← List.mem_cons] at hrest
    exact hrest

end ItemSet

namespace Sweep

variable {g : Grammar} {w : Word} {earlier : Chart} {input : Option Symbol} {s s' : Sweep}
  {item waiting : Item} {c : Symbol}

/-! ## What a step does -/

theorem mem_predicted {rules : List Rule} {p : Nat} :
    item ∈ predicted rules c p ↔ ∃ rule ∈ rules, rule.left = c ∧ ⟨rule, 0, p⟩ = item := by
  simp only [predicted, List.mem_map, List.mem_filter, decide_eq_true_eq, and_assoc]

theorem mem_advanced {items : Array Item} :
    item ∈ advanced items c ↔ ∃ x ∈ items, x.next? = some c ∧ x.advance = item := by
  simp only [advanced, List.mem_map, List.mem_filter, decide_eq_true_eq, and_assoc,
    Array.mem_toList_iff]

theorem mem_itemsAt_of_eq {origin : Nat} (h : origin = earlier.size) :
    waiting ∈ s.itemsAt earlier origin ↔ waiting ∈ s.current.items := by
  rw [itemsAt, if_pos h]

theorem mem_itemsAt_of_ne {origin : Nat} (h : origin ≠ earlier.size) :
    waiting ∈ s.itemsAt earlier origin ↔ waiting ∈ Chart.itemsAt earlier origin := by
  rw [itemsAt, if_neg h, Chart.itemsAt]
  cases earlier[origin]? with
  | none => simp
  | some set => simp

/-- The four things that processing an item may do. -/
theorem process_cases (g : Grammar) (earlier : Chart) (input : Option Symbol) (s : Sweep)
    (item : Item) :
    (∃ c, item.next? = some c ∧ c ∈ g.vocabulary.nonterminals ∧
      process g.vocabulary g.rules earlier input s item =
        s.add (predicted g.rules c earlier.size)) ∨
    (∃ c, item.next? = some c ∧ ¬ c ∈ g.vocabulary.nonterminals ∧ input = some c ∧
      process g.vocabulary g.rules earlier input s item =
        { s with following := s.following.insert item.advance }) ∨
    (∃ c, item.next? = some c ∧ ¬ c ∈ g.vocabulary.nonterminals ∧ input ≠ some c ∧
      process g.vocabulary g.rules earlier input s item = s) ∨
    (item.next? = none ∧
      process g.vocabulary g.rules earlier input s item =
        { s with nullable := s.nullable || item.origin = earlier.size }.add
          (advanced (s.itemsAt earlier item.origin) item.rule.left)) := by
  cases hnext : item.next? with
  | none =>
    refine Or.inr (Or.inr (Or.inr ⟨rfl, ?_⟩))
    simp only [process, hnext]
  | some c =>
    by_cases hc : c ∈ g.vocabulary.nonterminals
    · refine Or.inl ⟨c, rfl, hc, ?_⟩
      simp only [process, hnext, if_pos (Vocabulary.isNonterminal_iff.mpr hc)]
    · have hc' : ¬ g.vocabulary.isNonterminal c = true := fun h =>
        hc (Vocabulary.isNonterminal_iff.mp h)
      by_cases hinput : input = some c
      · refine Or.inr (Or.inl ⟨c, rfl, hc, hinput, ?_⟩)
        simp only [process, hnext, if_neg hc', if_pos hinput]
      · refine Or.inr (Or.inr (Or.inl ⟨c, rfl, hc, hinput, ?_⟩))
        simp only [process, hnext, if_neg hc', if_neg hinput]

/-- The next item to process is the next one of this sweep, or the first one of a new sweep. -/
theorem next?_cases (h : s.next? = some (item, s')) :
    (s.current.items[s.index]? = some item ∧ s' = { s with index := s.index + 1 }) ∨
    (s.current.items[s.index]? = none ∧ s.grew = true ∧ s.nullable = true ∧
      s.current.items[0]? = some item ∧
      s' = { s with index := 1, grew := false, nullable := false }) := by
  rw [next?] at h
  split at h
  · next x hx =>
    cases h
    exact Or.inl ⟨hx, rfl⟩
  · next hnone =>
    split at h
    · next hagain =>
      obtain ⟨hgrew, hnullable⟩ := Bool.and_eq_true_iff.mp hagain
      obtain ⟨x, hx, heq⟩ := Option.map_eq_some_iff.mp h
      cases heq
      exact Or.inr ⟨hnone, hgrew, hnullable, hx, rfl⟩
    · cases h

/-- Nothing is left to process when a sweep is over and the set did not grow or no completion spanned
nothing. -/
theorem of_next?_eq_none (h : s.next? = none) :
    s.current.items[s.index]? = none ∧
      (s.grew = true → s.nullable = true → s.current.items[0]? = none) := by
  rw [next?] at h
  split at h
  · cases h
  · next hnone =>
    refine ⟨hnone, ?_⟩
    intro hgrew hnullable
    rw [if_pos (by rw [hgrew, hnullable]; rfl)] at h
    exact Option.map_eq_none_iff.mp h

theorem finish_of_next?_eq_none {v : Vocabulary} {rules : List Rule} (h : s.next? = none)
    (steps : Nat) : finish v rules earlier input steps s = some (steps, s) := by
  cases steps with
  | zero => rw [finish, h]
  | succ steps => rw [finish, h]

/-! ## What a step keeps -/

/-- What processing an item may change: items come in behind the others, and it is noted whether any did. -/
structure Extends (s s' : Sweep) : Prop where
  /-- Items come in behind the others. -/
  current : s.current.items.toList <+: s'.current.items.toList
  /-- No item of the next position is lost. -/
  following : ∀ item ∈ s.following.items, item ∈ s'.following.items
  /-- A completion that spans nothing stays noted. -/
  nullable : s.nullable = true → s'.nullable = true
  /-- It is noted whether items came in. -/
  grew : s'.grew = (s.grew || decide (s.current.size < s'.current.size))
  /-- The place in the sweep stays the same. -/
  index : s'.index = s.index

theorem Extends.mem_current (h : s.Extends s') (hitem : item ∈ s.current.items) :
    item ∈ s'.current.items :=
  Array.mem_toList_iff.mp (h.current.subset (Array.mem_toList_iff.mpr hitem))

theorem Extends.size_le (h : s.Extends s') : s.current.size ≤ s'.current.size :=
  h.current.length_le

/-- Items keep their places. -/
theorem Extends.getElem?_eq (h : s.Extends s') {i : Nat} (hi : i < s.current.items.size) :
    s'.current.items[i]? = s.current.items[i]? := by
  obtain ⟨later, hlater⟩ := h.current
  rw [← Array.getElem?_toList, ← Array.getElem?_toList, ← hlater, List.getElem?_append_left hi]

/-- A set that is not noted to have grown is unchanged. -/
theorem Extends.items_eq (h : s.Extends s') (hgrew : s'.grew = false) :
    s.grew = false ∧ s.current.items = s'.current.items := by
  rw [h.grew, Bool.or_eq_false_iff, decide_eq_false_iff_not, not_lt] at hgrew
  refine ⟨hgrew.1, Array.toList_inj.mp ?_⟩
  exact h.current.eq_of_length (le_antisymm h.current.length_le hgrew.2)

theorem add_extends (s : Sweep) (items : List Item) : s.Extends (s.add items) where
  current := s.current.items_insertAll_prefix items
  following _ hitem := hitem
  nullable h := h
  grew := rfl
  index := rfl

theorem process_extends (g : Grammar) (earlier : Chart) (input : Option Symbol) (s : Sweep)
    (item : Item) (hfollowing : s.following.Faithful) :
    s.Extends (process g.vocabulary g.rules earlier input s item) := by
  rcases process_cases g earlier input s item with
    ⟨c, -, -, h⟩ | ⟨c, -, -, -, h⟩ | ⟨c, -, -, -, h⟩ | ⟨-, h⟩
  · rw [h]
    exact s.add_extends _
  · rw [h]
    refine ⟨List.prefix_refl _, ?_, id, by simp, rfl⟩
    intro x hx
    exact hfollowing.mem_insert.mpr (Or.inl hx)
  · rw [h]
    exact ⟨List.prefix_refl _, fun _ hx => hx, id, by simp, rfl⟩
  · rw [h]
    have hadd := add_extends { s with nullable := s.nullable || item.origin = earlier.size }
      (advanced (s.itemsAt earlier item.origin) item.rule.left)
    refine ⟨hadd.current, hadd.following, fun hnullable => hadd.nullable ?_, hadd.grew, hadd.index⟩
    simp [hnullable]

/-! ## Handled items -/

/-- An item whose consequences are there.  A completion that began at this position is only promised to
have moved the items waiting for it if the set did not grow. -/
structure Handled (g : Grammar) (earlier : Chart) (input : Option Symbol) (s : Sweep)
    (item : Item) : Prop where
  /-- The rules that the item predicts have begun. -/
  predict : ∀ rule ∈ g.rules, item.next? = some rule.left →
    rule.left ∈ g.vocabulary.nonterminals → ⟨rule, 0, earlier.size⟩ ∈ s.current.items
  /-- If the item expects the symbol that comes next, its dot moves to the next position. -/
  scan : ∀ c, item.next? = some c → ¬ c ∈ g.vocabulary.nonterminals → input = some c →
    item.advance ∈ s.following.items
  /-- If the item is complete, the dots of those that waited for it have moved. -/
  complete : item.next? = none → (item.origin = earlier.size → s.grew = false) →
    ∀ waiting ∈ s.itemsAt earlier item.origin, waiting.next? = some item.rule.left →
      waiting.advance ∈ s.current.items
  /-- A completion that spans nothing is noted. -/
  nullable : item.next? = none → item.origin = earlier.size → s.nullable = true

/-- What was handled stays handled. -/
theorem Handled.mono (h : Handled g earlier input s item) (hext : s.Extends s') :
    Handled g earlier input s' item where
  predict rule hrule hnext hleft := hext.mem_current (h.predict rule hrule hnext hleft)
  scan c hnext hc hinput := hext.following _ (h.scan c hnext hc hinput)
  complete hnone hgrew waiting hwaiting hnext := by
    apply hext.mem_current
    by_cases horigin : item.origin = earlier.size
    · -- The set did not grow, so the waiting items are those that were there before.
      obtain ⟨hbefore, hitems⟩ := hext.items_eq (hgrew horigin)
      rw [mem_itemsAt_of_eq horigin, ← hitems, ← mem_itemsAt_of_eq horigin] at hwaiting
      exact h.complete hnone (fun _ => hbefore) waiting hwaiting hnext
    · -- The set where the rule began is finished, so nothing new waits there.
      rw [mem_itemsAt_of_ne horigin, ← mem_itemsAt_of_ne horigin] at hwaiting
      exact h.complete hnone (fun heq => absurd heq horigin) waiting hwaiting hnext
  nullable hnone horigin := hext.nullable (h.nullable hnone horigin)

theorem handled_of_next (hnext : item.next? = some c)
    (hpredict : c ∈ g.vocabulary.nonterminals → ∀ rule ∈ g.rules, rule.left = c →
      ⟨rule, 0, earlier.size⟩ ∈ s.current.items)
    (hscan : ¬ c ∈ g.vocabulary.nonterminals → input = some c → item.advance ∈ s.following.items) :
    Handled g earlier input s item where
  predict rule hrule hrnext hleft := by
    have hc : rule.left = c := Option.some.inj (hrnext.symm.trans hnext)
    exact hpredict (hc ▸ hleft) rule hrule hc
  scan c' hnext' hc' hinput := by
    have hc : c' = c := Option.some.inj (hnext'.symm.trans hnext)
    exact hscan (hc ▸ hc') (hc ▸ hinput)
  complete hnone := by
    rw [hnext] at hnone
    cases hnone
  nullable hnone := by
    rw [hnext] at hnone
    cases hnone

/-- An item that was just processed is handled. -/
theorem process_handled (hcurrent : s.current.Faithful) (hfollowing : s.following.Faithful) :
    Handled g earlier input (process g.vocabulary g.rules earlier input s item) item := by
  rcases process_cases g earlier input s item with
    ⟨c, hnext, hc, h⟩ | ⟨c, hnext, hc, hinput, h⟩ | ⟨c, hnext, hc, hinput, h⟩ | ⟨hnone, h⟩
  · rw [h]
    refine handled_of_next hnext (fun _ rule hrule hleft => ?_) (fun hnot => absurd hc hnot)
    exact hcurrent.mem_insertAll.mpr (Or.inr (mem_predicted.mpr ⟨rule, hrule, hleft, rfl⟩))
  · rw [h]
    refine handled_of_next hnext (fun hyes => absurd hyes hc) (fun _ _ => ?_)
    exact hfollowing.mem_insert.mpr (Or.inr rfl)
  · rw [h]
    exact handled_of_next hnext (fun hyes => absurd hyes hc) (fun _ hyes => absurd hyes hinput)
  · rw [h]
    refine ⟨?_, ?_, ?_, ?_⟩
    · intro rule _ hnext
      rw [hnone] at hnext
      cases hnext
    · intro c hnext
      rw [hnone] at hnext
      cases hnext
    · intro _ hgrew waiting hwaiting hnext
      -- Where the set did not grow, the items waiting now are those whose dots were moved.
      have hbefore : waiting ∈ s.itemsAt earlier item.origin := by
        by_cases horigin : item.origin = earlier.size
        · have hitems := ((add_extends _ _).items_eq (hgrew horigin)).2
          rw [mem_itemsAt_of_eq horigin, ← hitems] at hwaiting
          exact (mem_itemsAt_of_eq horigin).mpr hwaiting
        · rw [mem_itemsAt_of_ne horigin] at hwaiting ⊢
          exact hwaiting
      exact hcurrent.mem_insertAll.mpr (Or.inr (mem_advanced.mpr ⟨waiting, hbefore, hnext, rfl⟩))
    · intro _ horigin
      simp [add, horigin]

/-! ## The invariant -/

/-- The state of the work at a position, after any number of steps: nothing is there that does not belong
there, the items to begin with are there, and the items that this sweep has passed are handled. -/
structure Invariant (g : Grammar) (w : Word) (earlier : Chart) (kernel : Array Item) (s : Sweep) :
    Prop where
  /-- The set of this position lists what it knows. -/
  current_faithful : s.current.Faithful
  /-- So does the set of the next position. -/
  following_faithful : s.following.Faithful
  /-- The items to begin with are there. -/
  kernel_mem : ∀ item ∈ kernel, item ∈ s.current.items
  /-- The items of this position belong there. -/
  current_charted : ∀ item ∈ s.current.items, Charted g w earlier.size item
  /-- So do those of the next position. -/
  following_charted : ∀ item ∈ s.following.items, Charted g w (earlier.size + 1) item
  /-- The items passed in this sweep are handled. -/
  handled : ∀ i item, i < s.index → s.current.items[i]? = some item →
    Handled g earlier w[earlier.size]? s item

variable {kernel : Array Item}

/-- Processing an item that belongs here only adds items that belong where they are added. -/
theorem process_charted
    (hearlier : ∀ q, ∀ item ∈ Chart.itemsAt earlier q, Charted g w q item)
    (hcurrent : s.current.Faithful) (hfollowing : s.following.Faithful)
    (hcharted : ∀ item ∈ s.current.items, Charted g w earlier.size item)
    (hnextCharted : ∀ item ∈ s.following.items, Charted g w (earlier.size + 1) item)
    (hitem : item ∈ s.current.items) :
    (∀ x ∈ (process g.vocabulary g.rules earlier w[earlier.size]? s item).current.items,
      Charted g w earlier.size x) ∧
    (∀ x ∈ (process g.vocabulary g.rules earlier w[earlier.size]? s item).following.items,
      Charted g w (earlier.size + 1) x) := by
  have hhere := hcharted item hitem
  rcases process_cases g earlier w[earlier.size]? s item with
    ⟨c, hnext, hc, h⟩ | ⟨c, hnext, hc, hinput, h⟩ | ⟨c, -, -, -, h⟩ | ⟨hnone, h⟩
  · rw [h]
    refine ⟨?_, hnextCharted⟩
    intro x hx
    rcases hcurrent.mem_insertAll.mp hx with hx | hx
    · exact hcharted x hx
    · obtain ⟨rule, hrule, rfl, rfl⟩ := mem_predicted.mp hx
      exact hhere.predict hnext hc hrule
  · rw [h]
    refine ⟨hcharted, ?_⟩
    intro x hx
    rcases hfollowing.mem_insert.mp hx with hx | rfl
    · exact hnextCharted x hx
    · exact hhere.scan hnext hc hinput
  · rw [h]
    exact ⟨hcharted, hnextCharted⟩
  · rw [h]
    refine ⟨?_, hnextCharted⟩
    intro x hx
    rcases hcurrent.mem_insertAll.mp hx with hx | hx
    · exact hcharted x hx
    · obtain ⟨waiting, hwaiting, hnext, rfl⟩ := mem_advanced.mp hx
      refine hhere.complete hnone ?_ hnext
      -- Items that wait at this very position belong here because the set is sound so far.
      by_cases horigin : item.origin = earlier.size
      · rw [horigin]
        exact hcharted waiting ((mem_itemsAt_of_eq horigin).mp hwaiting)
      · exact hearlier _ waiting ((mem_itemsAt_of_ne horigin).mp hwaiting)

theorem process_faithful (hcurrent : s.current.Faithful) (hfollowing : s.following.Faithful) :
    (process g.vocabulary g.rules earlier input s item).current.Faithful ∧
      (process g.vocabulary g.rules earlier input s item).following.Faithful := by
  rcases process_cases g earlier input s item with
    ⟨c, -, -, h⟩ | ⟨c, -, -, -, h⟩ | ⟨c, -, -, -, h⟩ | ⟨-, h⟩
  · rw [h]
    exact ⟨hcurrent.insertAll _, hfollowing⟩
  · rw [h]
    exact ⟨hcurrent, hfollowing.insert _⟩
  · rw [h]
    exact ⟨hcurrent, hfollowing⟩
  · rw [h]
    exact ⟨hcurrent.insertAll _, hfollowing⟩

/-- The items in front of the one that is taken up next have been passed, whether the sweep goes on or a
new one begins. -/
theorem Invariant.next (h : Invariant g w earlier kernel s) (hnext : s.next? = some (item, s')) :
    s'.current = s.current ∧ s'.following = s.following ∧
      ∃ i, s'.index = i + 1 ∧ s.current.items[i]? = some item ∧
        ∀ j x, j < i → s.current.items[j]? = some x → Handled g earlier w[earlier.size]? s' x := by
  rcases next?_cases hnext with ⟨hitem, rfl⟩ | ⟨-, -, -, hitem, rfl⟩
  · refine ⟨rfl, rfl, s.index, rfl, hitem, ?_⟩
    intro j x hj hx
    have hx' := h.handled j x hj hx
    exact ⟨hx'.predict, hx'.scan, hx'.complete, hx'.nullable⟩
  · exact ⟨rfl, rfl, 0, rfl, hitem, fun j x hj => absurd hj (Nat.not_lt_zero j)⟩

/-- **One step** keeps the invariant: the item taken up is handled, and those before it stay handled. -/
theorem Invariant.step (hearlier : ∀ q, ∀ item ∈ Chart.itemsAt earlier q, Charted g w q item)
    (h : Invariant g w earlier kernel s) (hnext : s.next? = some (item, s')) :
    Invariant g w earlier kernel
      (process g.vocabulary g.rules earlier w[earlier.size]? s' item) := by
  obtain ⟨hcurrent, hfollowing, i, hindex, hitem, hhandled⟩ := h.next hnext
  have hcf : s'.current.Faithful := hcurrent ▸ h.current_faithful
  have hff : s'.following.Faithful := hfollowing ▸ h.following_faithful
  have hmem : item ∈ s'.current.items := hcurrent ▸ Array.mem_of_getElem? hitem
  have hext := process_extends g earlier w[earlier.size]? s' item hff
  obtain ⟨hcf', hff'⟩ := process_faithful (g := g) hcf hff
  obtain ⟨hcharted, hnextCharted⟩ := process_charted hearlier hcf hff
    (hcurrent ▸ h.current_charted) (hfollowing ▸ h.following_charted) hmem
  refine ⟨hcf', hff', ?_, hcharted, hnextCharted, ?_⟩
  · intro x hx
    exact hext.mem_current (hcurrent ▸ h.kernel_mem x hx)
  · intro j x hj hx
    -- The place in the sweep is behind the item taken up, and items keep their places.
    rw [hext.index, hindex] at hj
    have hlt : i < s'.current.items.size := by
      rw [hcurrent]
      exact (Array.getElem?_eq_some_iff.mp hitem).1
    rw [hext.getElem?_eq (by omega), hcurrent] at hx
    rcases Nat.lt_succ_iff_lt_or_eq.mp hj with hlt' | rfl
    · exact (hhandled j x hlt' hx).mono hext
    · cases hitem.symm.trans hx
      exact process_handled hcf hff

/-- **All sweeps together** keep the invariant and leave nothing to process. -/
theorem Invariant.finish (hearlier : ∀ q, ∀ item ∈ Chart.itemsAt earlier q, Charted g w q item)
    (h : Invariant g w earlier kernel s) {steps left : Nat} {final : Sweep}
    (hrun : Sweep.finish g.vocabulary g.rules earlier w[earlier.size]? steps s =
      some (left, final)) :
    Invariant g w earlier kernel final ∧ final.next? = none := by
  induction steps generalizing s with
  | zero =>
    rw [Sweep.finish] at hrun
    split at hrun
    · next hnone =>
      cases hrun
      exact ⟨h, hnone⟩
    · cases hrun
  | succ steps ih =>
    rw [Sweep.finish] at hrun
    split at hrun
    · next hnone =>
      cases hrun
      exact ⟨h, hnone⟩
    · next hnext => exact ih (h.step hearlier hnext) hrun

/-! ## The end of the sweeps -/

/-- A set that is closed under predicting, scanning and completing. -/
structure Closed (g : Grammar) (w : Word) (earlier : Chart) (s : Sweep) : Prop where
  /-- The rules that are predicted have begun. -/
  predict : ∀ item ∈ s.current.items, ∀ rule ∈ g.rules, item.next? = some rule.left →
    rule.left ∈ g.vocabulary.nonterminals → ⟨rule, 0, earlier.size⟩ ∈ s.current.items
  /-- The dots of items that expect the next symbol have moved to the next position. -/
  scan : ∀ item ∈ s.current.items, ∀ c, item.next? = some c →
    ¬ c ∈ g.vocabulary.nonterminals → w[earlier.size]? = some c →
    item.advance ∈ s.following.items
  /-- The dots of items that waited for a completed rule have moved. -/
  complete : ∀ item ∈ s.current.items, item.next? = none →
    ∀ waiting ∈ s.itemsAt earlier item.origin, waiting.next? = some item.rule.left →
      waiting.advance ∈ s.current.items

/-- **When nothing is left to process, the set is closed.**  A completion that spans nothing was noted, so
the last sweep can only have ended because the set did not grow. -/
theorem Invariant.closed (h : Invariant g w earlier kernel s) (hdone : s.next? = none) :
    Closed g w earlier s := by
  obtain ⟨hover, hquiet⟩ := of_next?_eq_none hdone
  -- The last sweep is over, so it has passed every item of the set.
  have hhandled : ∀ item ∈ s.current.items, Handled g earlier w[earlier.size]? s item := by
    intro item hitem
    obtain ⟨i, hi, heq⟩ := Array.mem_iff_getElem.mp hitem
    have hpassed : i < s.index := hi.trans_le (Array.getElem?_eq_none_iff.mp hover)
    exact h.handled i item hpassed (Array.getElem?_eq_some_iff.mpr ⟨hi, heq⟩)
  refine ⟨fun item hitem => (hhandled item hitem).predict,
    fun item hitem => (hhandled item hitem).scan, ?_⟩
  intro item hitem hnone
  apply (hhandled item hitem).complete hnone
  intro horigin
  have hnullable := (hhandled item hitem).nullable hnone horigin
  by_contra hgrew
  have hempty := hquiet (by simpa using hgrew) hnullable
  rw [Array.getElem?_eq_none_iff] at hempty
  have := Array.size_pos_of_mem hitem
  omega

/-! ## How many steps the sweeps take -/

theorem Invariant.size_le (h : Invariant g w earlier kernel s) :
    s.current.size ≤ g.dots * (earlier.size + 1) := by
  rw [← length_itemsUpTo]
  have hsub : s.current.items.toList ⊆ itemsUpTo g earlier.size := by
    intro item hitem
    exact (h.current_charted item (Array.mem_toList_iff.mp hitem)).mem_itemsUpTo
  exact (List.subperm_of_subset h.current_faithful.nodup hsub).length_le

/-- How many steps may still follow if the set has no more than `m` items: the rest of this sweep, and one
sweep for every item that may still come in or has come in during this one. -/
def potential (m : Nat) (s : Sweep) : Nat :=
  (m - s.current.size + s.grew.toNat) * m + (m - s.index)

theorem Extends.sweeps_le (h : s.Extends s') {m : Nat} (hsize : s'.current.size ≤ m) :
    m - s'.current.size + s'.grew.toNat ≤ m - s.current.size + s.grew.toNat := by
  have hle := h.size_le
  rw [h.grew]
  cases s.grew with
  | true => simp only [Bool.true_or, Bool.toNat_true]; omega
  | false =>
    rw [Bool.false_or]
    by_cases hlt : s.current.size < s'.current.size
    · simp only [hlt, decide_true, Bool.toNat_true, Bool.toNat_false]; omega
    · simp only [hlt, decide_false, Bool.toNat_false]; omega

/-- Processing the item that is taken up next lowers the potential. -/
theorem potential_lt_of_extends {m : Nat} {s'' : Sweep} (hnext : s.next? = some (item, s'))
    (hext : s'.Extends s'') (hsize : s''.current.size ≤ m) : potential m s'' < potential m s := by
  have hsweeps := Nat.mul_le_mul_right m (hext.sweeps_le hsize)
  have hgrows := hext.size_le
  have hindex := hext.index
  rcases next?_cases hnext with ⟨hitem, rfl⟩ | ⟨-, hgrew, -, hitem, rfl⟩
  · -- The sweep goes on: one item fewer is left of it.
    have hlt : s.index < s.current.size := (Array.getElem?_eq_some_iff.mp hitem).1
    simp only at hsweeps hgrows hindex
    simp only [potential, hindex]
    omega
  · -- A new sweep begins: it is paid for by the growth in the last one.
    have hlt : 0 < s.current.size := (Array.getElem?_eq_some_iff.mp hitem).1
    simp only [Bool.toNat_false, Nat.add_zero] at hsweeps hgrows hindex
    simp only [potential, hindex, hgrew, Bool.toNat_true, Nat.add_mul, Nat.one_mul]
    rw [Nat.add_mul] at hsweeps
    omega

/-- **Every step lowers the potential.** -/
theorem Invariant.potential_lt
    (hearlier : ∀ q, ∀ item ∈ Chart.itemsAt earlier q, Charted g w q item)
    (h : Invariant g w earlier kernel s) {m : Nat} (hm : g.dots * (earlier.size + 1) ≤ m)
    (hnext : s.next? = some (item, s')) :
    potential m (process g.vocabulary g.rules earlier w[earlier.size]? s' item) <
      potential m s := by
  have hfollowing : s'.following.Faithful := (h.next hnext).2.1 ▸ h.following_faithful
  have hext := process_extends g earlier w[earlier.size]? s' item hfollowing
  exact potential_lt_of_extends hnext hext ((h.step hearlier hnext).size_le.trans hm)

/-- **The sweeps end within their potential.** -/
theorem Invariant.exists_finish
    (hearlier : ∀ q, ∀ item ∈ Chart.itemsAt earlier q, Charted g w q item)
    (h : Invariant g w earlier kernel s) {m steps : Nat} (hm : g.dots * (earlier.size + 1) ≤ m)
    (hsteps : potential m s ≤ steps) :
    ∃ left final, Sweep.finish g.vocabulary g.rules earlier w[earlier.size]? steps s =
      some (left, final) ∧ steps ≤ left + potential m s := by
  induction steps generalizing s with
  | zero =>
    rw [Sweep.finish]
    cases hnext : s.next? with
    | none => exact ⟨0, s, rfl, Nat.zero_le _⟩
    | some next =>
      have hlt := h.potential_lt hearlier hm hnext
      omega
  | succ steps ih =>
    rw [Sweep.finish]
    cases hnext : s.next? with
    | none => exact ⟨steps + 1, s, rfl, Nat.le_add_right _ _⟩
    | some next =>
      have hlt := h.potential_lt hearlier hm hnext
      obtain ⟨left, final, hrun, hleft⟩ := ih (h.step hearlier hnext) (by omega)
      exact ⟨left, final, hrun, by omega⟩

end Sweep

end PhraseStructure
