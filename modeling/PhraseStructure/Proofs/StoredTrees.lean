import PhraseStructure.Proofs.Reconstruction
import PhraseStructure.Proofs.StoredChart

/-!
# Trees from rules by index

A tree is rebuilt from a chart over arrays with three things at hand: a table that lists the indices of the rules
completed over a span, the number of attempts that are left, and the set of spans under way.  Both of the
latter change as attempts are made, and a span stops being under way whether its attempt succeeds or fails.

`Simulates` says that such an attempt does what an attempt of `Reconstruction` does, as long as the spans under
way are the spans above it.  It is closed under what attempts are made of, so that it holds of rows and, by
induction on the depth, of nodes (`simulates_node`).  Every node uses up an attempt; therefore the nodes on a path
are no more than the attempts, and one level beyond them is never entered.

## Main definitions

* `StoredCompletions`, `StoredChart.completionTable`: completed rules by index.
* `Progress`, `StoredAttempt`: attempts that share what is left and what is under way.
* `StoredReconstruction.node`, `StoredReconstruction.row`: a tree for a span, trees for a row of symbols.

## Main results

* `StoredReconstruction.simulates_node`: rebuilding over indices springs no trap.
* `StoredChart.exists_completionTable`: neither does filling the table.
-/

namespace PhraseStructure

/-! ## Attempts -/

/-- The attempts that are left, and the spans for which a tree is under way. -/
structure Progress where
  /-- How many attempts are left. -/
  left : Nat
  /-- The spans under way. -/
  underway : Std.HashSet Span

/-- An attempt that may fail or be stopped by a trap, and that leaves its traces either way. -/
abbrev StoredAttempt := OptionT (StateT Progress Checked)

namespace StoredAttempt

variable {α β : Type}

/-- Work that may be stopped by a trap, but does not fail. -/
def lift (x : Checked α) : StoredAttempt α :=
  fun s => x.map fun a => (some a, s)

/-- Makes an attempt while a span is under way. -/
def during (span : Span) (x : StoredAttempt α) : StoredAttempt α :=
  fun s => do
    let (a, s) ← x { s with underway := s.underway.insert span }
    return (a, { s with underway := s.underway.erase span })

/-- From any state with some spans under way and few enough attempts left, the stored attempt comes to what the
attempt comes to, and the same spans are under way as before. -/
def Simulates (above : List Span) (bound : Nat) (x : StoredAttempt α) (y : Attempt α) : Prop :=
  ∀ s : Progress, s.left ≤ bound → (∀ span, s.underway.contains span = above.contains span) →
    ∃ s', x s = .ok ((y.run.run s.left).1, s') ∧ s'.left = (y.run.run s.left).2 ∧ s'.left ≤ bound ∧
      ∀ span, s'.underway.contains span = above.contains span

variable {above : List Span} {bound : Nat} {x : StoredAttempt α} {y : Attempt α} {span : Span}

theorem simulates_pure (a : α) : Simulates above bound (pure a) (pure a) :=
  fun s hs habove => ⟨s, rfl, rfl, hs, habove⟩

theorem simulates_failure : Simulates above bound (failure : StoredAttempt α) failure :=
  fun s hs habove => ⟨s, rfl, rfl, hs, habove⟩

theorem Simulates.bind {k : α → StoredAttempt β} {f : α → Attempt β} (hx : Simulates above bound x y)
    (hk : ∀ a, Simulates above bound (k a) (f a)) : Simulates above bound (x >>= k) (y >>= f) := by
  intro s hs habove
  obtain ⟨s', hrun, hleft, hs', habove'⟩ := hx s hs habove
  rw [Attempt.run_bind]
  show ∃ s', (x s >>= _) = _ ∧ _
  rw [hrun]
  -- A failure passes its state on, a success goes on from it.
  rcases hy : y.run.run s.left with ⟨_ | a, left⟩
  · rw [hy] at hleft
    exact ⟨s', rfl, hleft, hs', habove'⟩
  · rw [hy] at hleft
    dsimp only at hleft ⊢
    rw [← hleft]
    exact hk a s' hs' habove'

theorem Simulates.orElse {x' : StoredAttempt α} {y' : Attempt α} (hx : Simulates above bound x y)
    (hx' : Simulates above bound x' y') : Simulates above bound (x <|> x') (y <|> y') := by
  intro s hs habove
  obtain ⟨s', hrun, hleft, hs', habove'⟩ := hx s hs habove
  rw [Attempt.run_orElse]
  show ∃ s', (x s >>= _) = _ ∧ _
  rw [hrun]
  rcases hy : y.run.run s.left with ⟨_ | a, left⟩
  · rw [hy] at hleft
    dsimp only at hleft ⊢
    rw [← hleft]
    exact hx' s' hs' habove'
  · rw [hy] at hleft
    exact ⟨s', rfl, hleft, hs', habove'⟩

/-- Attempts are made in the same order on both sides. -/
theorem simulates_firstM {ι κ : Type} {R : ι → κ → Prop} {xs : List ι} {ys : List κ}
    (hxs : List.Forall₂ R xs ys) {f : ι → StoredAttempt α} {h : κ → Attempt α}
    (hf : ∀ i k, R i k → Simulates above bound (f i) (h k)) :
    Simulates above bound (xs.firstM f) (ys.firstM h) := by
  induction hxs with
  | nil => exact simulates_failure
  | cons hik _ ih => exact (hf _ _ hik).orElse ih

/-- A span that is not yet above may be under way in the meantime. -/
theorem Simulates.during (hspan : above.contains span = false)
    (hx : Simulates (span :: above) bound x y) : Simulates above bound (during span x) y := by
  intro s hs habove
  obtain ⟨s', hrun, hleft, hs', habove'⟩ := hx ⟨s.left, s.underway.insert span⟩ hs (by
    intro other
    rw [Std.HashSet.contains_insert, habove, List.contains_cons, Bool.beq_comm])
  refine ⟨⟨s'.left, s'.underway.erase span⟩, ?_, hleft, hs', ?_⟩
  · rw [StoredAttempt.during, hrun]
    rfl
  · intro other
    rw [Std.HashSet.contains_erase, habove', List.contains_cons]
    by_cases heq : span = other
    · rw [← heq, hspan]
      simp
    · rw [beq_false_of_ne heq, beq_false_of_ne (Ne.symm heq)]
      rfl

end StoredAttempt

/-! ## Rebuilding -/

/-- Indices of completed rules by the span of their left side. -/
abbrev StoredCompletions := Std.HashMap Span (List Nat)

namespace StoredReconstruction

/-- Trees for the symbols of `right`, side by side from `start` to `stop`. -/
def row (v : Vocabulary) (input : Array Symbol) (table : StoredCompletions)
    (child : Span → StoredAttempt SyntaxTree) : Word → Nat → Nat → StoredAttempt (List SyntaxTree)
  | [], start, stop => if start = stop then pure [] else failure
  | c :: rest, start, stop =>
    if v.isTerminal c then
      if stop ≤ start || input[start]? != some c then
        failure
      else do
        let next ← StoredAttempt.lift (Checked.add start 1)
        let trees ← row v input table child rest next stop
        return .leaf c start :: trees
    else
      (List.range' start (stop + 1 - start)).firstM fun middle =>
        if table.contains ⟨c, start, middle⟩ then do
          let tree ← child ⟨c, start, middle⟩
          let trees ← row v input table child rest middle stop
          return tree :: trees
        else
          failure

/-- A tree for a span whose symbol is replaced by the rule at an index. -/
def nodeBy (v : Vocabulary) (rules : Array Rule) (input : Array Symbol) (table : StoredCompletions)
    (child : Span → StoredAttempt SyntaxTree) (span : Span) (index : Nat) : StoredAttempt SyntaxTree := do
  let rule ← StoredAttempt.lift (Checked.get rules index)
  let children ← row v input table child rule.right span.start span.stop
  return .node span.symbol span.start span.stop children

/-- A tree for a span that is not under way; no tree is higher than `depth`. -/
def node (v : Vocabulary) (rules : Array Rule) (input : Array Symbol) (table : StoredCompletions) :
    Nat → Span → StoredAttempt SyntaxTree
  | 0, _ => StoredAttempt.lift (.error .endless)
  | depth + 1, span => do
    let s ← getThe Progress
    if s.left = 0 || s.underway.contains span then
      failure
    let left ← StoredAttempt.lift (Checked.sub s.left 1)
    set { s with left }
    StoredAttempt.during span <|
      (table.getD span []).firstM (nodeBy v rules input table (node v rules input table depth) span)

/-- A table of indices and the table of rules that they stand for. -/
structure Lists (rules : List Rule) (stored : StoredCompletions) (table : Completions) : Prop where
  indices : ∀ span, List.Forall₂ (fun i rule => rules[i]? = some rule) (stored.getD span [])
    (table.rulesOf span)
  contains : ∀ span, stored.contains span = !(table.rulesOf span).isEmpty

open StoredAttempt

variable {v : Vocabulary} {rules : List Rule} {w : Word} {stored : StoredCompletions} {table : Completions}
  {above : List Span} {bound : Nat}

/-- Along a row a position is only passed where the input has a symbol. -/
theorem simulates_row (htable : Lists rules stored table) (hw : w.length < wordLimit)
    {child : Span → StoredAttempt SyntaxTree} {child' : Span → Attempt SyntaxTree}
    (hchild : ∀ span, Simulates above bound (child span) (child' span)) (right : Word) (start stop : Nat) :
    Simulates above bound (row v w.toArray stored child right start stop)
      (Reconstruction.row v w.toArray table child' right start stop) := by
  induction right generalizing start with
  | nil =>
    rw [row, Reconstruction.row]
    split
    · exact simulates_pure []
    · exact simulates_failure
  | cons c right ih =>
    rw [row, Reconstruction.row]
    split
    · by_cases h : start < stop ∧ w[start]? = some c
      · -- The input has a symbol here, so there is a position behind it.
        have hstart : start < w.length := (List.getElem?_eq_some_iff.mp h.2).1
        rw [if_neg (by simp [h.1, h.2]), if_pos (by simp [h.1, h.2]), Checked.add_eq_ok (by omega)]
        exact (ih (start + 1)).bind fun trees => simulates_pure _
      · rw [if_pos (by simpa [-not_and, Classical.not_and_iff_not_or_not] using h), if_neg (by simpa using h)]
        exact simulates_failure
    · refine simulates_firstM (R := Eq) (List.forall₂_refl _) ?_
      rintro middle _ rfl
      rw [htable.contains]
      cases (table.rulesOf ⟨c, start, middle⟩).isEmpty with
      | true => exact simulates_failure
      | false => exact (hchild _).bind fun tree => (ih middle).bind fun trees => simulates_pure _

/-- A node uses up an attempt, unless none is left or its span is under way. -/
theorem node_apply {depth : Nat} {span : Span} {input : Array Symbol} {rules : Array Rule} (s : Progress) :
    node v rules input stored (depth + 1) span s =
      if s.left = 0 || s.underway.contains span then .ok (none, s)
      else during span ((stored.getD span []).firstM
        (nodeBy v rules input stored (node v rules input stored depth) span)) ⟨s.left - 1, s.underway⟩ := by
  obtain ⟨left, underway⟩ := s
  rw [node]
  show (if (decide (left = 0) || underway.contains span) = true then failure
    else lift (Checked.sub left 1) >>= _ : StoredAttempt SyntaxTree) ⟨left, underway⟩ = _
  by_cases hstop : (decide (left = 0) || underway.contains span) = true
  · rw [if_pos hstop, if_pos hstop]
    rfl
  · have hpos : 1 ≤ left := by
      simp only [Bool.or_eq_true, decide_eq_true_eq, not_or] at hstop
      omega
    rw [if_neg hstop, if_neg hstop, Checked.sub_eq_ok hpos]
    rfl

/-- **Rebuilding over indices springs no trap.** -/
theorem simulates_node (htable : Lists rules stored table) (hw : w.length < wordLimit) (depth : Nat)
    (above : List Span) (span : Span) :
    Simulates above depth (node v rules.toArray w.toArray stored (depth + 1) span)
      (Reconstruction.node v w.toArray table depth above span) := by
  induction depth generalizing above span with
  | zero =>
    -- No attempt is left, so the level below is not entered.
    intro s hs habove
    refine ⟨s, ?_, rfl, hs, habove⟩
    rw [node_apply, if_pos (by simp [Nat.le_zero.mp hs])]
    rfl
  | succ depth ih =>
    intro s hs habove
    rw [node_apply, Reconstruction.run_node, habove span]
    by_cases hstop : (decide (s.left = 0) || above.contains span) = true
    · rw [if_pos hstop, if_pos hstop]
      exact ⟨s, rfl, rfl, hs, habove⟩
    · rw [if_neg hstop, if_neg hstop]
      -- An attempt is used up, and below it the span is one of those above.
      have hfree : above.contains span = false := by
        rw [Bool.not_eq_true, Bool.or_eq_false_iff] at hstop
        exact hstop.2
      have hattempts : Simulates (span :: above) depth
          ((stored.getD span []).firstM (nodeBy v rules.toArray w.toArray stored
            (node v rules.toArray w.toArray stored (depth + 1)) span))
          (Reconstruction.byRules v w.toArray table
            (Reconstruction.node v w.toArray table depth (span :: above)) span) := by
        refine simulates_firstM (htable.indices span) fun i rule hi => ?_
        have hget : Checked.get rules.toArray i = .ok rule := Checked.get_eq_ok (by rw [List.getElem?_toArray, hi])
        rw [nodeBy, hget]
        exact (simulates_row htable hw (ih (span :: above)) rule.right span.start span.stop).bind
          fun children => simulates_pure _
      obtain ⟨s', hrun, hleft, hs', habove'⟩ :=
        hattempts.during hfree ⟨s.left - 1, s.underway⟩ (Nat.sub_le_of_le_add hs) habove
      exact ⟨s', hrun, hleft, Nat.le_succ_of_le hs', habove'⟩

end StoredReconstruction

/-! ## The table of completed rules -/

namespace Checked

variable {α β γ δ : Type} {R : α → β → Prop} {S : γ → δ → Prop} {xs : List α} {ys : List β}

/-- What is done to each of some things is done to all of them. -/
theorem exists_mapM {f : α → Checked γ} {h : β → δ} (hf : ∀ a b, R a b → ∃ c, f a = .ok c ∧ S c (h b))
    (hxs : List.Forall₂ R xs ys) : ∃ zs, xs.mapM f = .ok zs ∧ List.Forall₂ S zs (ys.map h) := by
  induction hxs with
  | nil => exact ⟨[], rfl, .nil⟩
  | @cons a b xs ys hab _ ih =>
    obtain ⟨c, hc, hS⟩ := hf a b hab
    obtain ⟨zs, hzs, hrest⟩ := ih
    refine ⟨c :: zs, ?_, .cons hS hrest⟩
    rw [List.mapM_cons, hc, ok_bind, hzs, ok_bind, pure_eq]

end Checked

namespace StoredItem

variable {rules : List Rule} {x : StoredItem} {item : Item} {xs : List StoredItem} {items : List Item}

/-- The items whose dots stand at the end of their rules. -/
def completed (rules : Array Rule) : List StoredItem → Checked (List StoredItem)
  | [] => return []
  | x :: xs => do
    let rule ← Checked.get rules x.rule
    let others ← completed rules xs
    return if x.dot = rule.right.length then x :: others else others

/-- The span of a completed item that stops at a position, and the index of its rule. -/
def completion (rules : Array Rule) (stop : Nat) (x : StoredItem) : Checked (Span × Nat) := do
  let rule ← Checked.get rules x.rule
  return (⟨rule.left, x.origin, stop⟩, x.rule)

/-- The item that is meant, with its dot within its rule. -/
structure Marks (rules : List Rule) (x : StoredItem) (item : Item) : Prop extends Denotes rules x item where
  dot_le : item.dot ≤ item.rule.right.length

theorem Marks.isComplete_iff (h : Marks rules x item) :
    x.dot = item.rule.right.length ↔ item.isComplete = true := by
  have hdot := h.dot_le
  rw [h.dot, Item.isComplete, Item.next?, Option.isNone_iff_eq_none, List.getElem?_eq_none_iff]
  omega

theorem exists_completed (h : List.Forall₂ (Marks rules) xs items) :
    ∃ ys, completed rules.toArray xs = .ok ys ∧
      List.Forall₂ (Marks rules) ys (items.filter Item.isComplete) := by
  induction h with
  | nil => exact ⟨[], rfl, .nil⟩
  | @cons x item xs items hx _ ih =>
    obtain ⟨ys, hys, hmarks⟩ := ih
    rw [completed, hx.get, Checked.ok_bind, hys, Checked.ok_bind]
    by_cases hcomplete : item.isComplete = true
    · refine ⟨x :: ys, by rw [if_pos (hx.isComplete_iff.mpr hcomplete), Checked.pure_eq], ?_⟩
      rw [List.filter_cons_of_pos hcomplete]
      exact .cons hx hmarks
    · refine ⟨ys, by rw [if_neg (mt hx.isComplete_iff.mp hcomplete), Checked.pure_eq], ?_⟩
      rw [List.filter_cons_of_neg hcomplete]
      exact hmarks

end StoredItem

/-- Adds an index behind the indices of the same span. -/
def StoredCompletions.add (table : StoredCompletions) (entry : Span × Nat) : StoredCompletions :=
  table.insert entry.1 (table.getD entry.1 [] ++ [entry.2])

namespace StoredChart

/-- The completed items of some sets, position by position. -/
def completions (rules : Array Rule) : List (Array StoredItem × Nat) → Checked (List (Span × Nat))
  | [] => return []
  | (set, stop) :: sets => do
    let xs ← StoredItem.completed rules set.toList
    let here ← xs.mapM (StoredItem.completion rules stop)
    return here ++ (← completions rules sets)

/-- The completed rules of a chart by their spans. -/
def completionTable (rules : Array Rule) (chart : StoredChart) : Checked StoredCompletions := do
  let entries ← completions rules chart.sets.toList.zipIdx
  return entries.foldl StoredCompletions.add ∅

/-- An entry with an index and the entry with the rule at that index. -/
def Enters (rules : List Rule) (entry : Span × Nat) (target : Span × Rule) : Prop :=
  entry.1 = target.1 ∧ rules[entry.2]? = some target.2

variable {rules : List Rule}

theorem exists_completions {sets : List (Array StoredItem)} {targets : List ItemSet}
    (h : List.Forall₂ (fun set target => List.Forall₂ (StoredItem.Marks rules) set.toList
      target.items.toList) sets targets) (stop : Nat) :
    ∃ entries, completions rules.toArray (sets.zipIdx stop) = .ok entries ∧
      List.Forall₂ (Enters rules) entries ((targets.zipIdx stop).flatMap fun (set, stop) =>
        (set.items.toList.filter Item.isComplete).map fun item =>
          (⟨item.rule.left, item.origin, stop⟩, item.rule)) := by
  induction h generalizing stop with
  | nil => exact ⟨[], rfl, .nil⟩
  | @cons set target sets targets hset _ ih =>
    obtain ⟨xs, hxs, hmarks⟩ := StoredItem.exists_completed hset
    have hentry : ∀ x item, StoredItem.Marks rules x item →
        ∃ entry, x.completion rules.toArray stop = .ok entry ∧
          Enters rules entry (⟨item.rule.left, item.origin, stop⟩, item.rule) := by
      intro x item hx
      refine ⟨(⟨item.rule.left, x.origin, stop⟩, x.rule), ?_, by rw [hx.origin], hx.rule⟩
      rw [StoredItem.completion, hx.get, Checked.ok_bind, Checked.pure_eq]
    obtain ⟨here, hhere, henters⟩ := Checked.exists_mapM hentry hmarks
    obtain ⟨others, hothers, hrest⟩ := ih (stop + 1)
    refine ⟨here ++ others, ?_, ?_⟩
    · rw [List.zipIdx_cons, completions, hxs, Checked.ok_bind, hhere, Checked.ok_bind, hothers, Checked.ok_bind,
        Checked.pure_eq]
    · rw [List.zipIdx_cons, List.flatMap_cons]
      exact List.rel_append henters hrest

end StoredChart

namespace StoredReconstruction

variable {rules : List Rule} {stored : StoredCompletions} {table : Completions}

theorem Lists.add (h : Lists rules stored table) {entry : Span × Nat} {target : Span × Rule}
    (hentry : StoredChart.Enters rules entry target) :
    Lists rules (stored.add entry) (table.add target) := by
  obtain ⟨span, i⟩ := entry
  obtain ⟨span', rule⟩ := target
  obtain ⟨rfl, hrule⟩ := hentry
  dsimp only at hrule
  refine ⟨?_, ?_⟩
  · intro other
    rw [StoredCompletions.add, Completions.add, Completions.rulesOf, Std.HashMap.getD_insert,
      Std.HashMap.getD_insert]
    split
    · exact List.rel_append (h.indices _) (.cons hrule .nil)
    · exact h.indices other
  · intro other
    rw [StoredCompletions.add, Completions.add, Completions.rulesOf, Std.HashMap.contains_insert,
      Std.HashMap.getD_insert, h.contains]
    split
    · next heq => simp [heq]
    · next hne => simp [hne, Completions.rulesOf]

theorem lists_empty (rules : List Rule) : Lists rules ∅ ∅ where
  indices span := by simp [Completions.rulesOf]
  contains span := by simp [Completions.rulesOf]

end StoredReconstruction

namespace StoredChart

variable {g : Grammar} {w : Word} {chart : Chart} {stored : StoredChart} {ceiling : Nat}

/-- A syntax tree for the whole input, built with at most the given number of attempts. -/
def tree? (stored : StoredChart) (g : Grammar) (attempts : Nat) (w : Word) : Checked (Option SyntaxTree) := do
  let table ← stored.completionTable g.rules.toArray
  let (tree, _) ← StoredReconstruction.node g.vocabulary g.rules.toArray w.toArray table (attempts + 1)
    ⟨g.start, 0, w.length⟩ ⟨attempts, ∅⟩
  return tree

/-- The items of a finished chart have their dots within their rules. -/
theorem Holds.marks (h : Holds g.rules w.length stored fun p => chart[p]?.getD .empty)
    (hbuild : Chart.build g ceiling w = some chart) {p : Nat} {set : Array StoredItem}
    (hset : stored.sets[p]? = some set) :
    List.Forall₂ (StoredItem.Marks g.rules) set.toList (chart.itemsAt p) := by
  have hp : p ≤ w.length := by
    have hlt := (Array.getElem?_eq_some_iff.mp hset).1
    rw [h.size] at hlt
    omega
  obtain ⟨set', seen, hset', -, hshows⟩ := h.exists_set hp
  obtain rfl : set = set' := Option.some.inj (hset.symm.trans hset')
  have hitems : (chart[p]?.getD .empty).items.toList = chart.itemsAt p := by
    rw [Chart.itemsAt]
    cases chart[p]? <;> rfl
  have hdenotes := hshows.items
  rw [hitems] at hdenotes
  obtain ⟨hlength, hdenotes⟩ := List.forall₂_iff_zip.mp hdenotes
  refine List.forall₂_iff_zip.mpr ⟨hlength, fun {x item} hmem => ⟨hdenotes hmem, ?_⟩⟩
  have hitem : item ∈ chart.itemsAt p := (List.of_mem_zip hmem).2
  exact ((Chart.mem_itemsAt_iff hbuild).mp hitem).dot_le

/-- **The table of completed rules** is filled without a trap, span by span with the same rules. -/
theorem exists_completionTable (h : Holds g.rules w.length stored fun p => chart[p]?.getD .empty)
    (hbuild : Chart.build g ceiling w = some chart) (hsize : chart.size = w.length + 1) :
    ∃ table, stored.completionTable g.rules.toArray = .ok table ∧
      StoredReconstruction.Lists g.rules table chart.completionTable := by
  have hsets : List.Forall₂ (fun set target => List.Forall₂ (StoredItem.Marks g.rules) set.toList
      target.items.toList) stored.sets.toList chart.toList := by
    refine List.forall₂_iff_get.mpr ⟨?_, fun p hp hp' => ?_⟩
    · rw [Array.length_toList, Array.length_toList, h.size, hsize]
    · have hset : stored.sets[p]? = some (stored.sets.toList.get ⟨p, hp⟩) := by
        rw [← Array.getElem?_toList, List.getElem?_eq_getElem hp, List.get_eq_getElem]
      have htarget : chart.itemsAt p = (chart.toList.get ⟨p, hp'⟩).items.toList := by
        rw [Chart.itemsAt, ← Array.getElem?_toList, List.getElem?_eq_getElem hp', List.get_eq_getElem]
        rfl
      rw [← htarget]
      exact h.marks hbuild hset
  obtain ⟨entries, hentries, henters⟩ := exists_completions hsets 0
  refine ⟨entries.foldl StoredCompletions.add ∅, ?_, ?_⟩
  · rw [completionTable, hentries, Checked.ok_bind, Checked.pure_eq]
  · exact List.rel_foldl (fun _ _ hlists _ _ hentry => hlists.add hentry)
      (StoredReconstruction.lists_empty g.rules) henters

/-- **The tree over a stored chart** is the tree of the chart. -/
theorem tree?_eq (h : Holds g.rules w.length stored fun p => chart[p]?.getD .empty)
    (hbuild : Chart.build g ceiling w = some chart) (hsize : chart.size = w.length + 1)
    (hw : w.length < wordLimit) (attempts : Nat) :
    stored.tree? g attempts w = .ok (chart.tree? g attempts w) := by
  obtain ⟨table, htable, hlists⟩ := exists_completionTable h hbuild hsize
  obtain ⟨s, hrun, -⟩ := StoredReconstruction.simulates_node (v := g.vocabulary) hlists hw attempts []
    ⟨g.start, 0, w.length⟩ ⟨attempts, ∅⟩ (Nat.le_refl attempts) (by simp)
  rw [tree?, htable, Checked.ok_bind, hrun]
  rfl

end StoredChart

end PhraseStructure
