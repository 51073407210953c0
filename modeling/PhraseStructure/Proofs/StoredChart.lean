import Mathlib.Data.List.Forall2
import PhraseStructure.Proofs.Chart
import PhraseStructure.Proofs.StoredSearches

/-!
# Charts over arrays of indices

A machine lists the rules of a grammar once and refers to them by their indices, and it lays out the sets of all
positions in one array before the work begins.  Then a rule, the set where a rule began, the set of the next
position and the next item of a set are all found by index, and dots, positions and steps are counted in 64
bits.

This module fills such a chart.  `StoredItem.Denotes` relates an item with the index of its rule to an item of a
chart, and `StoredChart.Holds` relates the whole array to the sets of the chart: those that are finished, the one
that is worked on, the one that comes next, and empty sets behind it.  Every step keeps the relation.  That no
index is out of range rests on what is known of charted items: their rules began no later than where they
stand, and a dot that can move stands in front of a symbol.

## Main definitions

* `StoredItem`, `StoredChart`: items by rule index, and the sets of all positions.
* `StoredSweep.finish`, `StoredChart.build`: the work at one position, and at all of them.
* `StoredChart.Holds`: an array that holds the sets of a chart.

## Main results

* `StoredSweep.Follows.finish`: the work at one position springs no trap.
* `StoredChart.exists_build`: neither does the work at all positions.
-/

namespace PhraseStructure

/-- A rule under way, with the rule given by its index. -/
structure StoredItem where
  /-- The index of the rule. -/
  rule : Nat
  /-- How many symbols of its right side were found. -/
  dot : Nat
  /-- The position where it began. -/
  origin : Nat
deriving DecidableEq, Hashable

namespace StoredItem

/-- The symbol that is expected next. -/
def next? (rules : Array Rule) (x : StoredItem) : Checked (Option Symbol) := do
  let rule ← Checked.get rules x.rule
  return rule.right[x.dot]?

/-- The item with one more symbol found. -/
def advance (x : StoredItem) : Checked StoredItem := do
  let dot ← Checked.add x.dot 1
  return { x with dot }

/-- The items whose dots move because a symbol was found. -/
def advanced (rules : Array Rule) (c : Symbol) : List StoredItem → Checked (List StoredItem)
  | [] => return []
  | x :: xs => do
    let next ← x.next? rules
    if next = some c then
      let y ← x.advance
      return y :: (← advanced rules c xs)
    else
      advanced rules c xs

/-- The rules of a symbol as items that begin at a position. -/
def predicted (rules : Array Rule) (c : Symbol) (position : Nat) : List StoredItem :=
  (rules.toList.zipIdx.filter fun (rule, _) => rule.left = c).map fun (_, i) => ⟨i, 0, position⟩

end StoredItem

/-- The sets of items of all positions, in order of arrival and for quick look-up. -/
structure StoredChart where
  /-- The items of each position. -/
  sets : Array (Array StoredItem)
  /-- The same items, for quick look-up. -/
  seen : Array (Std.HashSet StoredItem)

namespace StoredChart

/-- The chart of an input of `n` symbols before the work begins. -/
def blank (n : Nat) : Checked StoredChart := do
  let size ← Checked.add n 1
  return ⟨Array.replicate size #[], Array.replicate size ∅⟩

/-- Adds an item to the set of a position, and tells whether it is new there. -/
def add (chart : StoredChart) (position : Nat) (x : StoredItem) : Checked (Bool × StoredChart) := do
  let seen ← Checked.get chart.seen position
  if seen.contains x then
    return (false, chart)
  else
    let set ← Checked.get chart.sets position
    return (true, ⟨chart.sets.setIfInBounds position (set.push x),
      chart.seen.setIfInBounds position (seen.insert x)⟩)

/-- Adds items to the set of a position, and tells whether any is new there. -/
def addAll (chart : StoredChart) (position : Nat) : List StoredItem → Checked (Bool × StoredChart)
  | [] => return (false, chart)
  | x :: xs => do
    let (fresh, chart) ← chart.add position x
    let (more, chart) ← addAll chart position xs
    return (fresh || more, chart)

end StoredChart

/-- The work at a position: the chart, the next item to process, what the sweep has met, and the steps taken. -/
structure StoredSweep where
  /-- The sets of all positions. -/
  chart : StoredChart
  /-- Which item is processed next. -/
  index : Nat
  /-- Did the set of this position grow? -/
  grew : Bool
  /-- Did a completion span nothing? -/
  nullable : Bool
  /-- How many items were processed so far. -/
  steps : Nat

namespace StoredSweep

/-- Processes one item. -/
def process (v : Vocabulary) (rules : Array Rule) (input : Array Symbol) (position : Nat)
    (s : StoredSweep) (x : StoredItem) : Checked StoredSweep := do
  match ← x.next? rules with
  | some c =>
    if v.isNonterminal c then
      let (fresh, chart) ← s.chart.addAll position (StoredItem.predicted rules c position)
      return { s with chart, grew := s.grew || fresh }
    else if input[position]? = some c then
      let following ← Checked.add position 1
      let y ← x.advance
      let (_, chart) ← s.chart.add following y
      return { s with chart }
    else
      return s
  | none =>
    let rule ← Checked.get rules x.rule
    let waiting ← Checked.get s.chart.sets x.origin
    let moved ← StoredItem.advanced rules rule.left waiting.toList
    let (fresh, chart) ← s.chart.addAll position moved
    return { s with
      chart
      grew := s.grew || fresh
      nullable := s.nullable || x.origin = position }

/-- Processes items until none is left; no result if the steps run out. -/
def finish (v : Vocabulary) (rules : Array Rule) (input : Array Symbol) (ceiling position : Nat) :
    Nat → StoredSweep → Checked (Option StoredSweep)
  | 0, _ => .error .endless
  | rounds + 1, s => do
    let set ← Checked.get s.chart.sets position
    if s.index < set.size then
      if ceiling ≤ s.steps then
        return none
      else
        let steps ← Checked.add s.steps 1
        let x ← Checked.get set s.index
        let index ← Checked.add s.index 1
        let s ← process v rules input position { s with index, steps } x
        finish v rules input ceiling position rounds s
    else if s.grew && s.nullable then
      finish v rules input ceiling position rounds { s with index := 0, grew := false, nullable := false }
    else
      return some s

end StoredSweep

namespace StoredChart

/-- Completes the sets of some positions, one after another. -/
def fill (v : Vocabulary) (rules : Array Rule) (input : Array Symbol) (ceiling : Nat) :
    List Nat → StoredChart → Nat → Checked (Option StoredChart)
  | [], chart, _ => return some chart
  | position :: positions, chart, steps => do
    match ← StoredSweep.finish v rules input ceiling position (2 * ceiling + 2)
        ⟨chart, 0, false, false, steps⟩ with
    | none => return none
    | some s => fill v rules input ceiling positions s.chart s.steps

/-- The chart of an input; no result if it takes more steps than allowed. -/
def build (g : Grammar) (ceiling : Nat) (w : Word) : Checked (Option StoredChart) := do
  let chart ← blank w.length
  let (_, chart) ← chart.addAll 0 (StoredItem.predicted g.rules.toArray g.start 0)
  fill g.vocabulary g.rules.toArray w.toArray ceiling (List.range' 0 (w.length + 1)) chart 0

end StoredChart

/-! ## Items by index -/

/-- Left sides are not shared and alternatives not repeated, so no rule is listed twice. -/
theorem Grammar.nodup_rules (g : Grammar) : g.rules.Nodup := by
  refine List.nodup_flatMap.mpr ⟨?_, ?_⟩
  · intro p _
    cases p.singleLeft with
    | none => exact List.nodup_nil
    | some c => exact p.nodup.map fun r r' h => congrArg Rule.right h
  · refine (List.pairwise_map.mp g.nodup_left).imp fun {p q} hne => ?_
    intro rule hp hq
    dsimp only at hp hq
    cases hc : p.singleLeft with
    | none => simp [hc] at hp
    | some c =>
      cases hd : q.singleLeft with
      | none => simp [hd] at hq
      | some d =>
        rw [hc] at hp
        rw [hd] at hq
        obtain ⟨r, -, rfl⟩ := List.mem_map.mp hp
        obtain ⟨r', -, heq⟩ := List.mem_map.mp hq
        have hsame : d = c := congrArg Rule.left heq
        rw [Production.singleLeft_eq_some_iff] at hc hd
        exact hne (by rw [hc, hd, hsame])

namespace StoredItem

variable {rules : List Rule} {x y : StoredItem} {item item' : Item} {xs : List StoredItem}
  {items : List Item} {c : Symbol}

/-- The item that is meant. -/
structure Denotes (rules : List Rule) (x : StoredItem) (item : Item) : Prop where
  rule : rules[x.rule]? = some item.rule
  dot : x.dot = item.dot
  origin : x.origin = item.origin

/-- Rules are listed once, so an item is meant by one stored item only. -/
theorem Denotes.eq_iff (hnodup : rules.Nodup) (h : Denotes rules x item) (h' : Denotes rules y item') :
    x = y ↔ item = item' := by
  obtain ⟨i, d, o⟩ := x
  obtain ⟨j, d', o'⟩ := y
  obtain ⟨rule, dot, origin⟩ := item
  obtain ⟨rule', dot', origin'⟩ := item'
  obtain ⟨hrule, rfl, rfl⟩ := h
  obtain ⟨hrule', rfl, rfl⟩ := h'
  dsimp only at hrule hrule'
  have hindex : i = j ↔ rule = rule' := by
    constructor
    · rintro rfl
      exact Option.some.inj (hrule.symm.trans hrule')
    · rintro rfl
      exact (List.getElem?_inj (List.getElem?_eq_some_iff.mp hrule).1 hnodup).mp (hrule.trans hrule'.symm)
  simp [hindex]

theorem Denotes.get (h : Denotes rules x item) : Checked.get rules.toArray x.rule = .ok item.rule :=
  Checked.get_eq_ok (by rw [List.getElem?_toArray, h.rule])

theorem Denotes.next? (h : Denotes rules x item) : x.next? rules.toArray = .ok item.next? := by
  rw [StoredItem.next?, h.get, Checked.ok_bind, h.dot]
  rfl

theorem Denotes.advance (hlength : ∀ rule ∈ rules, rule.right.length < wordLimit)
    (h : Denotes rules x item) (hnext : item.next? = some c) :
    ∃ y, x.advance = .ok y ∧ Denotes rules y item.advance := by
  have hdot : item.dot < item.rule.right.length := (List.getElem?_eq_some_iff.mp hnext).1
  have hrule := hlength item.rule (List.mem_of_getElem? h.rule)
  refine ⟨{ x with dot := x.dot + 1 }, ?_, h.rule, congrArg (· + 1) h.dot, h.origin⟩
  rw [StoredItem.advance, Checked.add_eq_ok (by rw [h.dot]; omega)]
  rfl

theorem exists_advanced (hlength : ∀ rule ∈ rules, rule.right.length < wordLimit)
    (h : List.Forall₂ (Denotes rules) xs items) (c : Symbol) :
    ∃ ys, advanced rules.toArray c xs = .ok ys ∧
      List.Forall₂ (Denotes rules) ys ((items.filter fun item => item.next? = some c).map Item.advance) := by
  induction h with
  | nil => exact ⟨[], rfl, .nil⟩
  | @cons x item xs items hx _ ih =>
    obtain ⟨ys, hys, hdenotes⟩ := ih
    rw [advanced, hx.next?, Checked.ok_bind]
    by_cases hnext : item.next? = some c
    · obtain ⟨y, hy, hyd⟩ := hx.advance hlength hnext
      refine ⟨y :: ys, ?_, ?_⟩
      · rw [if_pos hnext, hy, Checked.ok_bind, hys]
        rfl
      · rw [List.filter_cons_of_pos (by simpa using hnext), List.map_cons]
        exact .cons hyd hdenotes
    · refine ⟨ys, by rw [if_neg hnext, hys], ?_⟩
      rw [List.filter_cons_of_neg (by simpa using hnext)]
      exact hdenotes

theorem denotes_predicted (rules : List Rule) (c : Symbol) (position : Nat) :
    List.Forall₂ (Denotes rules) (predicted rules.toArray c position)
      (Sweep.predicted rules c position) := by
  have hrules : rules.filter (fun rule => rule.left = c) =
      (rules.zipIdx.filter fun (rule, _) => rule.left = c).map Prod.fst := by
    have hfst := congrArg (List.filter fun rule => rule.left = c) (List.zipIdx_map_fst 0 rules)
    rw [List.filter_map] at hfst
    exact hfst.symm
  rw [Sweep.predicted, hrules, predicted, List.map_map, List.forall₂_map_left_iff,
    List.forall₂_map_right_iff, List.forall₂_same]
  rintro ⟨rule, i⟩ hmem
  exact ⟨List.mem_zipIdx_iff_getElem?.mp (List.mem_of_mem_filter hmem), rfl, rfl⟩

end StoredItem

/-! ## Sets by position -/

/-- A stored set and the set of items that it holds. -/
structure Shows (rules : List Rule) (set : Array StoredItem) (seen : Std.HashSet StoredItem)
    (target : ItemSet) : Prop where
  items : List.Forall₂ (StoredItem.Denotes rules) set.toList target.items.toList
  seen : ∀ x item, StoredItem.Denotes rules x item → seen.contains x = target.seen.contains item

namespace Shows

variable {rules : List Rule} {set : Array StoredItem} {seen : Std.HashSet StoredItem} {target : ItemSet}
  {x : StoredItem} {item : Item}

theorem empty (rules : List Rule) : Shows rules #[] ∅ ItemSet.empty where
  items := .nil
  seen := by simp [ItemSet.empty]

theorem size (h : Shows rules set seen target) : set.size = target.size := by
  rw [ItemSet.size, ← Array.length_toList, ← Array.length_toList, h.items.length_eq]

theorem exists_item (h : Shows rules set seen target) {i : Nat} (hx : set[i]? = some x) :
    ∃ item, target.items[i]? = some item ∧ StoredItem.Denotes rules x item := by
  obtain ⟨hlength, hget⟩ := List.forall₂_iff_get.mp h.items
  rw [← Array.getElem?_toList, List.getElem?_eq_some_iff] at hx
  obtain ⟨hlt, rfl⟩ := hx
  refine ⟨target.items.toList[i], ?_, hget i hlt (hlength ▸ hlt)⟩
  rw [← Array.getElem?_toList, List.getElem?_eq_getElem]

theorem push (hnodup : rules.Nodup) (h : Shows rules set seen target)
    (hx : StoredItem.Denotes rules x item) (hnew : seen.contains x = false) :
    Shows rules (set.push x) (seen.insert x) (target.insert item) := by
  have hnew' : ¬ target.seen.contains item = true := by
    rw [← h.seen x item hx, hnew]
    exact Bool.false_ne_true
  rw [ItemSet.insert, if_neg hnew']
  refine ⟨?_, ?_⟩
  · rw [Array.toList_push, Array.toList_push]
    exact List.rel_append h.items (.cons hx .nil)
  · intro y item' hy
    have hbeq : (x == y) = (item == item') :=
      beq_eq_beq.mpr (hx.eq_iff hnodup hy)
    rw [Std.HashSet.contains_insert, Std.HashSet.contains_insert, h.seen y item' hy, hbeq]

end Shows

namespace ItemSet

theorem size_le_insert (set : ItemSet) (item : Item) : set.size ≤ (set.insert item).size := by
  have h := (set.items_insert_prefix item).length_le
  rwa [Array.length_toList, Array.length_toList] at h

theorem size_le_insertAll (set : ItemSet) (items : List Item) : set.size ≤ (set.insertAll items).size := by
  have h := (set.items_insertAll_prefix items).length_le
  rwa [Array.length_toList, Array.length_toList] at h

end ItemSet

namespace StoredChart

variable {rules : List Rule} {n position : Nat} {chart : StoredChart} {target : Nat → ItemSet}
  {x : StoredItem} {item : Item} {xs : List StoredItem} {items : List Item}

/-- The array has a set for each of the positions from `0` to `n`. -/
structure Holds (rules : List Rule) (n : Nat) (chart : StoredChart) (target : Nat → ItemSet) : Prop where
  size : chart.sets.size = n + 1
  size_seen : chart.seen.size = n + 1
  shows : ∀ p set seen, chart.sets[p]? = some set → chart.seen[p]? = some seen →
    Shows rules set seen (target p)

/-- Positions up to `n` are in range. -/
theorem Holds.exists_set (h : Holds rules n chart target) {p : Nat} (hp : p ≤ n) :
    ∃ set seen, chart.sets[p]? = some set ∧ chart.seen[p]? = some seen ∧
      Shows rules set seen (target p) := by
  have hset : p < chart.sets.size := by rw [h.size]; omega
  have hseen : p < chart.seen.size := by rw [h.size_seen]; omega
  exact ⟨_, _, Array.getElem?_eq_getElem hset, Array.getElem?_eq_getElem hseen,
    h.shows p _ _ (Array.getElem?_eq_getElem hset) (Array.getElem?_eq_getElem hseen)⟩

theorem Holds.congr {target' : Nat → ItemSet} (h : Holds rules n chart target)
    (htarget : ∀ p ≤ n, target p = target' p) : Holds rules n chart target' where
  size := h.size
  size_seen := h.size_seen
  shows p set seen hset hseen := by
    have hp := (Array.getElem?_eq_some_iff.mp hset).1
    rw [h.size] at hp
    rw [← htarget p (Nat.lt_succ_iff.mp hp)]
    exact h.shows p set seen hset hseen

theorem exists_blank (rules : List Rule) (hn : n + 1 < wordLimit) :
    ∃ chart, blank n = .ok chart ∧ Holds rules n chart fun _ => .empty := by
  refine ⟨⟨Array.replicate (n + 1) #[], Array.replicate (n + 1) ∅⟩, ?_, ?_, ?_, ?_⟩
  · rw [blank, Checked.add_eq_ok hn]
    rfl
  · exact Array.size_replicate
  · exact Array.size_replicate
  · intro p set seen hset hseen
    dsimp only at hset hseen
    rw [Array.getElem?_replicate, Option.ite_none_right_eq_some] at hset hseen
    rw [← Option.some.inj hset.2, ← Option.some.inj hseen.2]
    exact Shows.empty rules

/-- **Adding an item** to the set of a position adds it there and nowhere else. -/
theorem Holds.add (hnodup : rules.Nodup) (h : Holds rules n chart target) (hp : position ≤ n)
    (hx : StoredItem.Denotes rules x item) :
    ∃ chart', chart.add position x =
        .ok (decide ((target position).size < ((target position).insert item).size), chart') ∧
      Holds rules n chart' (Function.update target position ((target position).insert item)) := by
  obtain ⟨set, seen, hset, hseen, hshows⟩ := h.exists_set hp
  rw [StoredChart.add, Checked.get_eq_ok hseen, Checked.ok_bind]
  cases hknown : seen.contains x with
  | true =>
    have hsame : (target position).insert item = target position := by
      rw [ItemSet.insert, if_pos (by rw [← hshows.seen x item hx, hknown])]
    refine ⟨chart, ?_, ?_⟩
    · rw [hsame]
      simp
    · rw [hsame, Function.update_eq_self]
      exact h
  | false =>
    have hpush := hshows.push hnodup hx hknown
    have hsize : (target position).size < ((target position).insert item).size := by
      rw [← hpush.size, ← hshows.size, Array.size_push]
      exact Nat.lt_succ_self _
    refine ⟨⟨chart.sets.setIfInBounds position (set.push x),
      chart.seen.setIfInBounds position (seen.insert x)⟩, ?_, ?_, ?_, ?_⟩
    · rw [Checked.get_eq_ok hset]
      simp [hsize]
    · rw [Array.size_setIfInBounds, h.size]
    · rw [Array.size_setIfInBounds, h.size_seen]
    · intro p set' seen' hset' hseen'
      dsimp only at hset' hseen'
      by_cases hpp : p = position
      · subst hpp
        rw [Array.getElem?_setIfInBounds_self_of_lt (Array.getElem?_eq_some_iff.mp hset).1] at hset'
        rw [Array.getElem?_setIfInBounds_self_of_lt (Array.getElem?_eq_some_iff.mp hseen).1] at hseen'
        rw [← Option.some.inj hset', ← Option.some.inj hseen', Function.update_self]
        exact hpush
      · rw [Array.getElem?_setIfInBounds_ne (Ne.symm hpp)] at hset' hseen'
        rw [Function.update_of_ne hpp]
        exact h.shows p set' seen' hset' hseen'

/-- Adding items one after another tells whether the set of the position has grown. -/
theorem Holds.addAll (hnodup : rules.Nodup) (h : Holds rules n chart target) (hp : position ≤ n)
    (hxs : List.Forall₂ (StoredItem.Denotes rules) xs items) :
    ∃ chart', chart.addAll position xs =
        .ok (decide ((target position).size < ((target position).insertAll items).size), chart') ∧
      Holds rules n chart' (Function.update target position ((target position).insertAll items)) := by
  induction hxs generalizing chart target with
  | nil =>
    refine ⟨chart, ?_, ?_⟩
    · simp [StoredChart.addAll, ItemSet.insertAll]
    · simpa [ItemSet.insertAll] using h
  | @cons x item xs items hx _ ih =>
    obtain ⟨chart', hadd, hholds⟩ := h.add hnodup hp hx
    obtain ⟨chart'', hrest, hholds'⟩ := ih hholds
    rw [Function.update_self] at hrest hholds'
    rw [Function.update_idem] at hholds'
    refine ⟨chart'', ?_, hholds'⟩
    -- The set has grown if the first item is new or one of the others is.
    have hone := (target position).size_le_insert item
    have hmore := ((target position).insert item).size_le_insertAll items
    have hgrown : (decide ((target position).size < ((target position).insert item).size) ||
        decide (((target position).insert item).size < (((target position).insert item).insertAll items).size)) =
        decide ((target position).size < ((target position).insertAll (item :: items)).size) := by
      rw [Bool.eq_iff_iff, Bool.or_eq_true, decide_eq_true_eq, decide_eq_true_eq, decide_eq_true_eq]
      change _ ↔ (target position).size < (((target position).insert item).insertAll items).size
      omega
    rw [StoredChart.addAll, hadd, Checked.ok_bind]
    dsimp only
    rw [hrest, Checked.ok_bind, ← hgrown]
    rfl

end StoredChart

/-- The sets of all positions while one position is worked on: the finished ones, that one, the next one, and
empty sets behind it. -/
def Chart.layout (earlier : Chart) (current following : ItemSet) (p : Nat) : ItemSet :=
  if p < earlier.size then earlier[p]?.getD .empty
  else if p = earlier.size then current
  else if p = earlier.size + 1 then following
  else .empty

namespace Chart

variable {earlier : Chart} {current following : ItemSet} {p : Nat}

theorem layout_of_lt (h : p < earlier.size) :
    layout earlier current following p = earlier[p]?.getD .empty :=
  if_pos h

@[simp]
theorem layout_size : layout earlier current following earlier.size = current := by
  rw [layout, if_neg (Nat.lt_irrefl _), if_pos rfl]

@[simp]
theorem layout_following : layout earlier current following (earlier.size + 1) = following := by
  rw [layout, if_neg (by omega), if_neg (by omega), if_pos rfl]

/-- Moving on to the next position leaves all sets where they are. -/
theorem layout_push :
    layout (earlier.push current) following .empty = layout earlier current following := by
  funext p
  simp only [layout, Array.size_push, Array.getElem?_push]
  rcases Nat.lt_trichotomy p earlier.size with hp | rfl | hp
  · rw [if_pos (by omega), if_neg (by omega), if_pos hp]
  · rw [if_pos (by omega), if_pos rfl, if_neg (Nat.lt_irrefl _), if_pos rfl]
    rfl
  · have hlt : ¬ p < earlier.size + 1 := by omega
    have hlt' : ¬ p < earlier.size := by omega
    have hne : ¬ p = earlier.size := by omega
    rw [if_neg hlt, if_neg hlt', if_neg hne, ite_self]

theorem update_layout_current (set : ItemSet) :
    Function.update (layout earlier current following) earlier.size set =
      layout earlier set following := by
  funext p
  by_cases hp : p = earlier.size
  · rw [hp, Function.update_self, layout_size]
  · rw [Function.update_of_ne hp, layout, layout, if_neg hp, if_neg hp]

theorem update_layout_following (set : ItemSet) :
    Function.update (layout earlier current following) (earlier.size + 1) set =
      layout earlier current set := by
  funext p
  by_cases hp : p = earlier.size + 1
  · rw [hp, Function.update_self, layout_following]
  · rw [Function.update_of_ne hp, layout, layout, if_neg hp, if_neg hp]

end Chart

/-! ## The work at one position -/

namespace StoredSweep

variable {g : Grammar} {w : Word} {earlier : Chart} {s : StoredSweep} {t : Sweep} {x : StoredItem}
  {item : Item}

/-- A stored sweep and the sweep that it follows, at the same place with the same notes. -/
structure Follows (g : Grammar) (w : Word) (earlier : Chart) (s : StoredSweep) (t : Sweep) : Prop where
  holds : StoredChart.Holds g.rules w.length s.chart (Chart.layout earlier t.current t.following)
  index : s.index = t.index
  grew : s.grew = t.grew
  nullable : s.nullable = t.nullable

/-- The items of the set where a rule began. -/
theorem Follows.exists_origin (h : Follows g w earlier s t) {origin : Nat} (horigin : origin ≤ earlier.size)
    (hposition : earlier.size ≤ w.length) :
    ∃ set, Checked.get s.chart.sets origin = .ok set ∧
      List.Forall₂ (StoredItem.Denotes g.rules) set.toList (t.itemsAt earlier origin).toList := by
  obtain ⟨set, seen, hset, -, hshows⟩ := h.holds.exists_set (Nat.le_trans horigin hposition)
  refine ⟨set, Checked.get_eq_ok hset, ?_⟩
  have hitems : t.itemsAt earlier origin = (Chart.layout earlier t.current t.following origin).items := by
    unfold Sweep.itemsAt
    split
    · next heq => rw [heq, Chart.layout_size]
    · next hne =>
      have hlt : origin < earlier.size := by omega
      rw [Chart.layout_of_lt hlt, Array.getElem?_eq_getElem hlt]
      rfl
  rw [hitems]
  exact hshows.items

/-- Adding items to the set of the position. -/
theorem Follows.addAll (hnodup : g.rules.Nodup) (h : Follows g w earlier s t)
    (hposition : earlier.size ≤ w.length) {xs : List StoredItem} {items : List Item}
    (hxs : List.Forall₂ (StoredItem.Denotes g.rules) xs items) :
    ∃ fresh chart, s.chart.addAll earlier.size xs = .ok (fresh, chart) ∧
      Follows g w earlier { s with chart, grew := s.grew || fresh } (t.add items) := by
  obtain ⟨chart, hadd, hholds⟩ := h.holds.addAll hnodup hposition hxs
  rw [Chart.layout_size] at hadd hholds
  rw [Chart.update_layout_current] at hholds
  exact ⟨_, chart, hadd, hholds, h.index, by rw [h.grew]; rfl, h.nullable⟩

/-- **Processing an item springs no trap.** -/
theorem Follows.process (hnodup : g.rules.Nodup)
    (hlength : ∀ rule ∈ g.rules, rule.right.length < wordLimit) (hw : w.length < wordLimit)
    (hposition : earlier.size ≤ w.length) (h : Follows g w earlier s t)
    (hx : StoredItem.Denotes g.rules x item) (horigin : item.origin ≤ earlier.size) :
    ∃ s', process g.vocabulary g.rules.toArray w.toArray earlier.size s x = .ok s' ∧
      s'.steps = s.steps ∧ s'.index = s.index ∧
      Follows g w earlier s' (Sweep.process g.vocabulary g.rules earlier w[earlier.size]? t item) := by
  have hinput : w.toArray[earlier.size]? = w[earlier.size]? := List.getElem?_toArray
  rw [StoredSweep.process, hx.next?, Checked.ok_bind]
  rcases Sweep.process_cases g earlier w[earlier.size]? t item with
    ⟨c, hnext, hc, hprocess⟩ | ⟨c, hnext, hc, hscan, hprocess⟩ | ⟨c, hnext, hc, hscan, hprocess⟩ |
      ⟨hnone, hprocess⟩
  · obtain ⟨fresh, chart, hadd, hfollows⟩ :=
      h.addAll hnodup hposition (StoredItem.denotes_predicted g.rules c earlier.size)
    rw [hnext, hprocess]
    dsimp only
    rw [if_pos (Vocabulary.isNonterminal_iff.mpr hc), hadd]
    exact ⟨_, rfl, rfl, rfl, hfollows⟩
  · -- The next symbol of the input is there to be read, so there is a next position.
    have hlt : earlier.size < w.length := (List.getElem?_eq_some_iff.mp hscan).1
    obtain ⟨y, hy, hyd⟩ := hx.advance hlength hnext
    obtain ⟨chart, hadd, hholds⟩ := h.holds.add hnodup hlt hyd
    rw [Chart.layout_following, Chart.update_layout_following] at hholds
    rw [hnext, hprocess]
    dsimp only
    rw [if_neg (mt Vocabulary.isNonterminal_iff.mp hc), if_pos (hinput.trans hscan),
      Checked.add_eq_ok (by omega), Checked.ok_bind, hy, Checked.ok_bind, hadd]
    exact ⟨_, rfl, rfl, rfl, hholds, h.index, h.grew, h.nullable⟩
  · rw [hnext, hprocess]
    dsimp only
    rw [if_neg (mt Vocabulary.isNonterminal_iff.mp hc), if_neg (by rwa [hinput])]
    exact ⟨s, rfl, rfl, rfl, h⟩
  · obtain ⟨set, hset, hitems⟩ := h.exists_origin horigin hposition
    obtain ⟨moved, hmoved, hdenotes⟩ := StoredItem.exists_advanced hlength hitems item.rule.left
    have hnoted : Follows g w earlier { s with nullable := s.nullable || decide (x.origin = earlier.size) }
        { t with nullable := t.nullable || decide (item.origin = earlier.size) } :=
      ⟨h.holds, h.index, h.grew, by rw [h.nullable, hx.origin]⟩
    obtain ⟨fresh, chart, hadd, hfollows⟩ := hnoted.addAll hnodup hposition hdenotes
    dsimp only at hadd
    rw [hnone, hprocess]
    dsimp only
    rw [hx.get, Checked.ok_bind, hx.origin, hset, Checked.ok_bind, hmoved, Checked.ok_bind, hadd]
    rw [hx.origin] at hfollows
    exact ⟨_, rfl, rfl, rfl, hfollows⟩

/-- What a stored sweep has come to when a sweep is finished or its steps have run out. -/
def Agrees (g : Grammar) (w : Word) (earlier : Chart) (ceiling : Nat) :
    Option (Nat × Sweep) → Option StoredSweep → Prop :=
  Option.Rel fun x s => s.steps + x.1 = ceiling ∧
    StoredChart.Holds g.rules w.length s.chart (Chart.layout earlier x.2.current x.2.following)

/-- A sweep that begins again comes to what the sweep before it comes to. -/
theorem Agrees.of_restart {ceiling left : Nat} {input : Option Symbol} {result : Option StoredSweep}
    (hover : t.current.items[t.index]? = none) (hagain : (t.grew && t.nullable) = true)
    (h : Agrees g w earlier ceiling (Sweep.finish g.vocabulary g.rules earlier input left
      { t with index := 0, grew := false, nullable := false }) result) :
    Agrees g w earlier ceiling (Sweep.finish g.vocabulary g.rules earlier input left t) result := by
  cases hfirst : t.current.items[0]? with
  | none =>
    have hnext : t.next? = none := by simp [Sweep.next?, hover, hagain, hfirst]
    have hnext' : Sweep.next? { t with index := 0, grew := false, nullable := false } = none := by
      simp [Sweep.next?, hfirst]
    rw [Sweep.finish_of_next?_eq_none hnext'] at h
    rw [Sweep.finish_of_next?_eq_none hnext]
    cases h with
    | some hs => exact .some hs
  | some item =>
    -- Both take up the first item again and are then the same.
    have hnext : t.next? = some (item, { t with index := 1, grew := false, nullable := false }) := by
      simp [Sweep.next?, hover, hagain, hfirst]
    have hnext' : Sweep.next? { t with index := 0, grew := false, nullable := false } =
        some (item, { t with index := 1, grew := false, nullable := false }) := by
      simp [Sweep.next?, hfirst]
    cases left with
    | zero =>
      rw [Sweep.finish, hnext'] at h
      rw [Sweep.finish, hnext]
      exact h
    | succ left =>
      rw [Sweep.finish, hnext'] at h
      rw [Sweep.finish, hnext]
      exact h

/-- **The work at a position springs no trap.**  A step is taken in every round but those in which a sweep
begins again, and a sweep that begins again takes a step first. -/
theorem Follows.finish (hnodup : g.rules.Nodup)
    (hlength : ∀ rule ∈ g.rules, rule.right.length < wordLimit) (hw : w.length < wordLimit)
    (hposition : earlier.size ≤ w.length) {ceiling : Nat} (hceiling : ceiling < wordLimit)
    (hearlier : ∀ q, ∀ item ∈ Chart.itemsAt earlier q, Charted g w q item) {kernel : Array Item}
    {rounds left : Nat} (hinv : Sweep.Invariant g w earlier kernel t) (h : Follows g w earlier s t)
    (hsteps : s.steps + left = ceiling) (hindex : s.index ≤ s.steps)
    (hrounds : 2 * left + (t.grew && t.nullable).toNat < rounds) :
    ∃ result, finish g.vocabulary g.rules.toArray w.toArray ceiling earlier.size rounds s = .ok result ∧
      Agrees g w earlier ceiling
        (Sweep.finish g.vocabulary g.rules earlier w[earlier.size]? left t) result := by
  -- The induction is on the rounds; the steps taken and those left add up to the ceiling throughout.
  induction rounds generalizing s t left with
  | zero => exact absurd hrounds (Nat.not_lt_zero _)
  | succ rounds ih =>
    obtain ⟨set, seen, hset, -, hshows⟩ := h.holds.exists_set hposition
    rw [Chart.layout_size] at hshows
    rw [StoredSweep.finish, Checked.get_eq_ok hset, Checked.ok_bind]
    by_cases hlt : s.index < set.size
    · -- The item at the index is the next one of the sweep.
      have hget := Array.getElem?_eq_getElem hlt
      obtain ⟨item, hitem, hx⟩ := hshows.exists_item hget
      rw [h.index] at hitem
      have hnext : t.next? = some (item, { t with index := t.index + 1 }) := by
        rw [Sweep.next?, hitem]
      rw [if_pos hlt]
      cases left with
      | zero =>
        refine ⟨none, if_pos (by omega), ?_⟩
        rw [Sweep.finish, hnext]
        exact .none
      | succ left =>
        have hfollows : Follows g w earlier { s with index := s.index + 1, steps := s.steps + 1 }
            { t with index := t.index + 1 } :=
          ⟨h.holds, congrArg (· + 1) h.index, h.grew, h.nullable⟩
        have horigin := (hinv.current_charted item (Array.mem_of_getElem? hitem)).origin_le
        obtain ⟨s', hprocess, hsteps', hindex', hfollows'⟩ :=
          hfollows.process hnodup hlength hw hposition hx horigin
        obtain ⟨result, hresult, hagrees⟩ := @ih s' _ left (hinv.step hearlier hnext) hfollows'
          (by rw [hsteps', ← hsteps]; dsimp only; omega) (by rw [hsteps', hindex']; exact Nat.succ_le_succ hindex)
          (Nat.lt_of_le_of_lt (Nat.add_le_add_left (Bool.toNat_le _) _) (by omega))
        refine ⟨result, ?_, ?_⟩
        · rw [if_neg (by omega), Checked.add_eq_ok (by omega), Checked.ok_bind, Checked.get_eq_ok hget,
            Checked.ok_bind, Checked.add_eq_ok (by omega), Checked.ok_bind, hprocess, Checked.ok_bind, hresult]
        · rw [Sweep.finish, hnext]
          exact hagrees
    · rw [if_neg hlt, h.grew, h.nullable]
      have hover : t.current.items[t.index]? = none := by
        rw [Array.getElem?_eq_none_iff, ← h.index]
        exact hshows.size.symm.trans_le (Nat.not_lt.mp hlt)
      cases hagain : (t.grew && t.nullable) with
      | true =>
        -- The next sweep has passed nothing yet.
        have hfollows : Follows g w earlier { s with index := 0, grew := false, nullable := false }
            { t with index := 0, grew := false, nullable := false } :=
          ⟨h.holds, rfl, rfl, rfl⟩
        have hinv' : Sweep.Invariant g w earlier kernel
            { t with index := 0, grew := false, nullable := false } :=
          ⟨hinv.current_faithful, hinv.following_faithful, hinv.kernel_mem, hinv.current_charted,
            hinv.following_charted, fun i _ hi => absurd hi (Nat.not_lt_zero i)⟩
        rw [hagain, Bool.toNat_true] at hrounds
        obtain ⟨result, hresult, hagrees⟩ := @ih _ _ left hinv' hfollows hsteps (Nat.zero_le _) (by
          show 2 * left + 0 < rounds
          omega)
        exact ⟨result, hresult, hagrees.of_restart hover hagain⟩
      | false =>
        have hnext : t.next? = none := by
          rw [Sweep.next?, hover]
          simp [hagain]
        refine ⟨some s, rfl, ?_⟩
        rw [Sweep.finish_of_next?_eq_none hnext]
        exact .some ⟨hsteps, h.holds⟩

end StoredSweep

/-! ## The work at all positions -/

namespace StoredChart

variable {g : Grammar} {w : Word} {earlier : Chart} {current : ItemSet} {chart : StoredChart}
  {ceiling steps left : Nat}

/-- Everything that is counted fits into 64 bits. -/
structure Fits (g : Grammar) (w : Word) (ceiling : Nat) : Prop where
  right : ∀ rule ∈ g.rules, rule.right.length < wordLimit
  input : w.length + 1 < wordLimit
  ceiling : ceiling < wordLimit

/-- The array holds the sets of a chart, or both were given up. -/
def Agrees (g : Grammar) (w : Word) : Option Chart → Option StoredChart → Prop :=
  Option.Rel fun chart stored => chart.size = w.length + 1 ∧
    Holds g.rules w.length stored fun p => chart[p]?.getD .empty

theorem exists_finish (hfits : Fits g w ceiling) (hstage : Chart.Stage g w earlier current)
    (hposition : earlier.size ≤ w.length)
    (h : Holds g.rules w.length chart (Chart.layout earlier current .empty))
    (hsteps : steps + left = ceiling) :
    ∃ result, StoredSweep.finish g.vocabulary g.rules.toArray w.toArray ceiling earlier.size
        (2 * ceiling + 2) ⟨chart, 0, false, false, steps⟩ = .ok result ∧
      StoredSweep.Agrees g w earlier ceiling
        (Sweep.finish g.vocabulary g.rules earlier w[earlier.size]? left (.start current)) result := by
  have hfollows : StoredSweep.Follows g w earlier ⟨chart, 0, false, false, steps⟩ (.start current) :=
    ⟨h, rfl, rfl, rfl⟩
  have hrounds : 2 * left + 0 < 2 * ceiling + 2 := by omega
  exact hfollows.finish g.nodup_rules hfits.right (Nat.lt_of_succ_lt hfits.input) hposition hfits.ceiling
    hstage.earlier_charted hstage.invariant hsteps (Nat.zero_le _) hrounds

/-- **The work at all positions springs no trap**: a position that is finished leaves the sets as the next one
needs them. -/
theorem exists_fill (hfits : Fits g w ceiling) {rest : Word} (hstage : Chart.Stage g w earlier current)
    (hrest : w.drop earlier.size = rest) (hend : earlier.size + rest.length = w.length)
    (h : Holds g.rules w.length chart (Chart.layout earlier current .empty))
    (hsteps : steps + left = ceiling) :
    ∃ result, fill g.vocabulary g.rules.toArray w.toArray ceiling
        (List.range' earlier.size (rest.length + 1)) chart steps = .ok result ∧
      Agrees g w (Chart.fill g.vocabulary g.rules rest earlier current left) result := by
  -- The induction is on what is left of the input; its positions are those that the array has yet to pass.
  induction rest generalizing earlier current chart steps left with
  | nil =>
    rw [List.length_nil] at hend
    obtain ⟨result, hfinish, hagrees⟩ := exists_finish hfits hstage (by omega) h hsteps
    rw [Chart.getElem?_eq_head?_of_drop hrest, List.head?_nil] at hagrees
    rw [List.length_nil, List.range'_one, fill, hfinish, Checked.ok_bind, Chart.fill]
    generalize Sweep.finish g.vocabulary g.rules earlier none left (.start current) = run at hagrees
    cases hagrees with
    | none => exact ⟨none, rfl, .none⟩
    | @some x s hs =>
      refine ⟨some s.chart, rfl, .some ⟨by rw [Array.size_push, ← hend], hs.2.congr fun p hp => ?_⟩⟩
      rw [← Chart.layout_push, Chart.layout_of_lt (by rw [Array.size_push]; omega)]
  | cons c rest ih =>
    rw [List.length_cons] at hend
    obtain ⟨result, hfinish, hagrees⟩ := exists_finish hfits hstage (by omega) h hsteps
    have hinput : w[earlier.size]? = some c := Chart.getElem?_eq_head?_of_drop hrest
    rw [hinput] at hagrees
    rw [List.length_cons, List.range'_succ, fill, hfinish, Checked.ok_bind, Chart.fill]
    cases hrun : Sweep.finish g.vocabulary g.rules earlier (some c) left (.start current) with
    | none =>
      rw [hrun] at hagrees
      cases hagrees
      exact ⟨none, rfl, .none⟩
    | some x =>
      rw [hrun] at hagrees
      obtain ⟨left', final⟩ := x
      cases hagrees with
      | @some _ s hs =>
        have hsize : (earlier.push final.current).size = earlier.size + 1 := Array.size_push _
        have hholds := hs.2
        rw [← Chart.layout_push] at hholds
        have hothers := ih (hstage.push (by rw [hinput]; exact hrun))
          (by rw [hsize]; exact Chart.drop_succ_of_drop hrest) (by rw [hsize]; omega) hholds hs.1
        rw [hsize] at hothers
        exact hothers

/-- **Building a chart over an array springs no trap** and ends with the sets of the chart. -/
theorem exists_build (hfits : Fits g w ceiling) :
    ∃ result, build g ceiling w = .ok result ∧ Agrees g w (Chart.build g ceiling w) result := by
  obtain ⟨chart, hblank, hempty⟩ := exists_blank g.rules hfits.input
  obtain ⟨chart', hadd, hholds⟩ := hempty.addAll g.nodup_rules (Nat.zero_le _)
    (StoredItem.denotes_predicted g.rules g.start 0)
  have hlayout : Function.update (fun _ => ItemSet.empty) 0
      (ItemSet.empty.insertAll (Sweep.predicted g.rules g.start 0)) =
      Chart.layout #[] (ItemSet.empty.insertAll (Sweep.predicted g.rules g.start 0)) .empty := by
    funext p
    cases p with
    | zero => rfl
    | succ p => simp [Chart.layout]
  rw [hlayout] at hholds
  rw [build, hblank, Checked.ok_bind, hadd, Checked.ok_bind]
  exact exists_fill hfits (Chart.stage_zero g w) List.drop_zero (Nat.zero_add _) hholds (Nat.zero_add _)

end StoredChart

end PhraseStructure
