import PhraseStructure.Proofs.Ceilings
import PhraseStructure.Proofs.Reconstruction

/-!
# Cutting cycles loses no tree

The tree of an accepted word is rebuilt by trying, and a node is refused where its span stands above itself.  Whether
a span gets a tree therefore depends on where it stands, and only the first tree that is found for it is ever looked
at.  Nevertheless an accepted word always gets its tree, and a ceiling that is high enough has no influence on which
one.

Three facts are behind this.

* Every attempt of bounded depth comes to an end: it uses up a fixed number of attempts, and what it comes to does
  not depend on how many are left beyond them (`ends_node`).
* The depth does not matter once it exceeds the number of spans in the table, since the spans on a path differ
  (`node_eq_of_fresh_lt`).
* A span for which a tree of some height can be put together gets a tree wherever no span stands above that has
  one of the same height (`succeeds_node`).  For a tree of least height this is inherited: the children have smaller
  trees, which neither the span itself has nor any span above it.

That the start symbol has a tree of some height is read off the items of the chart, by induction on how an item came
into it (`Charted.exists_covers`).

## Main definitions

* `Attempt.ComesTo`, `Attempt.Ends`, `Attempt.Succeeds`: what an attempt comes to, given attempts enough.
* `Reconstruction.Covers`: a row of symbols can be placed over a part of the input.
* `Reconstruction.Buildable`: a tree of bounded height can be put together for a span.
* `Completions.fresh`: the spans of a table that do not stand above.

## Main results

* `Reconstruction.ends_node`, `Reconstruction.succeeds_node`, `Reconstruction.node_eq_of_fresh_lt`: as above.
* `Chart.accepted_words_get_trees`: with steps enough there is a tree exactly for the words that are accepted.
-/

namespace PhraseStructure

/-! ## Attempts that come to an end -/

namespace Attempt

variable {α β ι : Type} {x y : Attempt α} {f : α → Attempt β} {r : Option α} {r' : Option β} {a : α}

/-- With attempts enough, an attempt comes to a result.  It uses up a fixed number of them, and how many are left
beyond that makes no difference. -/
def ComesTo (x : Attempt α) (r : Option α) : Prop :=
  ∃ used, ∀ n, used ≤ n → x.run.run n = (r, n - used)

/-- With attempts enough, an attempt comes to one result or the other. -/
def Ends (x : Attempt α) : Prop :=
  ∃ r, x.ComesTo r

/-- With attempts enough, an attempt succeeds. -/
def Succeeds (x : Attempt α) : Prop :=
  ∃ a, x.ComesTo (some a)

theorem comesTo_failure : (failure : Attempt α).ComesTo none :=
  ⟨0, fun _ _ => rfl⟩

theorem comesTo_pure (a : α) : (pure a : Attempt α).ComesTo (some a) :=
  ⟨0, fun _ _ => rfl⟩

theorem ComesTo.bind (hx : x.ComesTo (some a)) (hf : (f a).ComesTo r') : (x >>= f).ComesTo r' := by
  obtain ⟨used, hx⟩ := hx
  obtain ⟨used', hf⟩ := hf
  refine ⟨used + used', fun n hn => ?_⟩
  rw [run_bind, hx n (by omega)]
  dsimp only
  rw [hf _ (by omega), Nat.sub_sub]

theorem ComesTo.bind_none (hx : x.ComesTo none) : (x >>= f).ComesTo none := by
  obtain ⟨used, hx⟩ := hx
  refine ⟨used, fun n hn => ?_⟩
  rw [run_bind, hx n hn]

theorem ComesTo.orElse (hx : x.ComesTo none) (hy : y.ComesTo r) : (x <|> y).ComesTo r := by
  obtain ⟨used, hx⟩ := hx
  obtain ⟨used', hy⟩ := hy
  refine ⟨used + used', fun n hn => ?_⟩
  rw [run_orElse, hx n (by omega)]
  dsimp only
  rw [hy _ (by omega), Nat.sub_sub]

theorem ComesTo.orElse_some (hx : x.ComesTo (some a)) : (x <|> y).ComesTo (some a) := by
  obtain ⟨used, hx⟩ := hx
  refine ⟨used, fun n hn => ?_⟩
  rw [run_orElse, hx n hn]

theorem ends_failure : (failure : Attempt α).Ends :=
  ⟨none, comesTo_failure⟩

theorem ends_pure (a : α) : (pure a : Attempt α).Ends :=
  ⟨some a, comesTo_pure a⟩

theorem succeeds_pure (a : α) : (pure a : Attempt α).Succeeds :=
  ⟨a, comesTo_pure a⟩

theorem Ends.bind (hx : x.Ends) (hf : ∀ a, (f a).Ends) : (x >>= f).Ends := by
  obtain ⟨_ | a, hx⟩ := hx
  · exact ⟨none, hx.bind_none⟩
  · exact (hf a).imp fun _ => hx.bind

theorem Succeeds.bind (hx : x.Succeeds) (hf : ∀ a, (f a).Succeeds) : (x >>= f).Succeeds := by
  obtain ⟨a, hx⟩ := hx
  exact (hf a).imp fun _ => hx.bind

variable {xs : List ι} {h : ι → Attempt α}

theorem ends_firstM (hends : ∀ i ∈ xs, (h i).Ends) : (xs.firstM h).Ends := by
  induction xs with
  | nil => exact ends_failure
  | cons i xs ih =>
    obtain ⟨hi, hxs⟩ := List.forall_mem_cons.mp hends
    obtain ⟨_ | a, hi⟩ := hi
    · exact (ih hxs).imp fun _ => hi.orElse
    · exact ⟨some a, hi.orElse_some⟩

/-- Where one of several attempts succeeds and all of them end, one is the first to succeed. -/
theorem succeeds_firstM {i : ι} (hends : ∀ i ∈ xs, (h i).Ends) (hmem : i ∈ xs) (hi : (h i).Succeeds) :
    (xs.firstM h).Succeeds := by
  -- What fails in front of the attempt has ended, and what succeeds there does as well.
  induction xs with
  | nil => cases hmem
  | cons j xs ih =>
    obtain ⟨hj, hxs⟩ := List.forall_mem_cons.mp hends
    obtain ⟨_ | a, hj⟩ := hj
    · rcases List.mem_cons.mp hmem with rfl | hmem
      · obtain ⟨a, hi⟩ := hi
        exact ⟨a, hi.orElse_some⟩
      · exact (ih hxs hmem).imp fun _ => hj.orElse
    · exact ⟨a, hj.orElse_some⟩

end Attempt

/-! ## Trees that can be put together -/

namespace Reconstruction

open Attempt

variable {v : Vocabulary} {w right right' : Word} {table : Completions} {P Q : Span → Prop}
  {above : List Span} {span : Span} {start middle stop depth depth' height height' : Nat}

/-- A row of symbols can be placed over a part of the input, side by side: terminals where the input has them, and
other symbols over spans with a property. -/
inductive Covers (v : Vocabulary) (w : Word) (P : Span → Prop) : Word → Nat → Nat → Prop where
  | nil {i : Nat} : Covers v w P [] i i
  | terminal {c : Symbol} {right : Word} {i j : Nat} : c ∈ v.terminals → w[i]? = some c →
      Covers v w P right (i + 1) j → Covers v w P (c :: right) i j
  | part {c : Symbol} {right : Word} {i m j : Nat} : c ∉ v.terminals → i ≤ m → P ⟨c, i, m⟩ →
      Covers v w P right m j → Covers v w P (c :: right) i j

theorem Covers.le (h : Covers v w P right start stop) : start ≤ stop := by
  induction h with
  | nil => exact le_rfl
  | terminal _ _ _ ih => exact (Nat.le_succ _).trans ih
  | part _ hle _ _ ih => exact hle.trans ih

theorem Covers.mono (hPQ : ∀ span, P span → Q span) (h : Covers v w P right start stop) :
    Covers v w Q right start stop := by
  induction h with
  | nil => exact .nil
  | terminal hc hinput _ ih => exact .terminal hc hinput ih
  | part hc hle hspan _ ih => exact .part hc hle (hPQ _ hspan) ih

theorem Covers.append (h : Covers v w P right start middle) (h' : Covers v w P right' middle stop) :
    Covers v w P (right ++ right') start stop := by
  induction h with
  | nil => exact h'
  | terminal hc hinput _ ih => exact .terminal hc hinput (ih h')
  | part hc hle hspan _ ih => exact .part hc hle hspan (ih h')

/-- A tree of bounded height can be put together for a span, with rules that a table has for it. -/
def Buildable (v : Vocabulary) (w : Word) (table : Completions) : Nat → Span → Prop
  | 0, _ => False
  | height + 1, span => ∃ rule ∈ table.rulesOf span,
      Covers v w (Buildable v w table height) rule.right span.start span.stop

theorem Buildable.succ (h : Buildable v w table height span) : Buildable v w table (height + 1) span := by
  induction height generalizing span with
  | zero => exact h.elim
  | succ height ih =>
    obtain ⟨rule, hrule, hcovers⟩ := h
    exact ⟨rule, hrule, hcovers.mono fun _ => ih⟩

theorem Buildable.mono (hle : height ≤ height') (h : Buildable v w table height span) :
    Buildable v w table height' span := by
  induction hle with
  | refl => exact h
  | step _ ih => exact ih.succ

theorem Buildable.rulesOf_ne_nil (h : Buildable v w table height span) : table.rulesOf span ≠ [] := by
  cases height with
  | zero => exact h.elim
  | succ height =>
    obtain ⟨rule, hrule, -⟩ := h
    exact List.ne_nil_of_mem hrule

/-! ## Rows and nodes -/

theorem ends_row {child : Span → Attempt SyntaxTree} (hchild : ∀ span, (child span).Ends) (right : Word)
    (start stop : Nat) : (row v w.toArray table child right start stop).Ends := by
  induction right generalizing start with
  | nil =>
    rw [row]
    split
    · exact ends_pure _
    · exact ends_failure
  | cons c right ih =>
    rw [row]
    split
    · split
      · exact (ih (start + 1)).bind fun trees => ends_pure _
      · exact ends_failure
    · refine ends_firstM fun middle _ => ?_
      split
      · exact ends_failure
      · exact (hchild _).bind fun tree => (ih middle).bind fun trees => ends_pure _

/-- **A row is filled where it can be placed**: among all ways to divide the input, one is found. -/
theorem succeeds_row {child : Span → Attempt SyntaxTree} (hchild : ∀ span, (child span).Ends)
    (h : Covers v w (fun s => table.rulesOf s ≠ [] ∧ (child s).Succeeds) right start stop) :
    (row v w.toArray table child right start stop).Succeeds := by
  induction h with
  | nil =>
    rw [row, if_pos rfl]
    exact succeeds_pure []
  | @terminal c right i j hc hinput hrest ih =>
    have hlt : i < j := hrest.le
    rw [row, if_pos (Vocabulary.isTerminal_iff.mpr hc), if_pos (by simp [hlt, hinput])]
    exact ih.bind fun trees => succeeds_pure _
  | @part c right i m j hc hle hspan hrest ih =>
    have hmem : m ∈ List.range' i (j + 1 - i) := by
      have hm := hrest.le
      exact List.mem_range'_1.mpr ⟨hle, by omega⟩
    rw [row, if_neg (fun hterminal => hc (Vocabulary.isTerminal_iff.mp hterminal))]
    -- Shorter spans are tried before, with trees of their own; all of these tries end.
    refine succeeds_firstM ?_ hmem ?_
    · intro middle _
      split
      · exact ends_failure
      · exact (hchild _).bind fun tree => (ends_row hchild right middle j).bind
          fun trees => ends_pure _
    · rw [if_neg (by simpa using hspan.1)]
      exact hspan.2.bind fun tree => ih.bind fun trees => succeeds_pure _

theorem ends_byRules {child : Span → Attempt SyntaxTree} (hchild : ∀ span, (child span).Ends)
    (span : Span) : (byRules v w.toArray table child span).Ends :=
  ends_firstM fun _ _ => (ends_row hchild _ _ _).bind fun _ => ends_pure _

theorem succeeds_byRules {child : Span → Attempt SyntaxTree} {rule : Rule}
    (hchild : ∀ span, (child span).Ends) (hrule : rule ∈ table.rulesOf span)
    (h : Covers v w (fun s => table.rulesOf s ≠ [] ∧ (child s).Succeeds) rule.right span.start
      span.stop) : (byRules v w.toArray table child span).Succeeds := by
  refine succeeds_firstM ?_ hrule ((succeeds_row hchild h).bind fun children => succeeds_pure _)
  exact fun _ _ => (ends_row hchild _ _ _).bind fun children => ends_pure _

theorem comesTo_node_of_mem (h : span ∈ above) :
    (node v w.toArray table (depth + 1) above span).ComesTo none := by
  refine ⟨0, fun n _ => ?_⟩
  rw [run_node, if_pos (by simp [h])]
  rfl

/-- A node that is not refused does what its rules do, with one attempt less. -/
theorem comesTo_node {r : Option SyntaxTree} (hspan : span ∉ above)
    (h : (byRules v w.toArray table (node v w.toArray table depth (span :: above)) span).ComesTo r) :
    (node v w.toArray table (depth + 1) above span).ComesTo r := by
  obtain ⟨used, hrun⟩ := h
  refine ⟨used + 1, fun n hn => ?_⟩
  have hn0 : n ≠ 0 := by omega
  rw [run_node, if_neg (by simp [hspan, hn0]), hrun _ (by omega), Nat.sub_sub, Nat.add_comm 1]

/-- **Every attempt at a node comes to an end.** -/
theorem ends_node (depth : Nat) (above : List Span) (span : Span) :
    (node v w.toArray table depth above span).Ends := by
  induction depth generalizing above span with
  | zero => exact ends_failure
  | succ depth ih =>
    by_cases hspan : span ∈ above
    · exact ⟨none, comesTo_node_of_mem hspan⟩
    · exact (ends_byRules (ih (span :: above)) span).imp fun _ => comesTo_node hspan

/-- **A span gets a tree of some height wherever no span stands above that has one of the same height.** -/
theorem succeeds_node (h : Buildable v w table height span)
    (habove : ∀ s ∈ above, ¬ Buildable v w table height s) (hdepth : height ≤ depth) :
    (node v w.toArray table depth above span).Succeeds := by
  -- The induction is on the height, while the spans above grow in number.
  induction height generalizing depth above span with
  | zero => exact h.elim
  | succ height ih =>
    by_cases hlower : Buildable v w table height span
    · exact ih hlower (fun s hs hbuildable => habove s hs hbuildable.succ) (Nat.le_of_succ_le hdepth)
    · -- The height is the least one, so the children stand below spans without trees of their height.
      obtain ⟨depth, rfl⟩ := Nat.exists_eq_add_of_le' (Nat.one_le_of_lt hdepth)
      have hspan : span ∉ above := fun hmem => habove span hmem h
      have hbelow : ∀ s ∈ span :: above, ¬ Buildable v w table height s := by
        refine List.forall_mem_cons.mpr ⟨hlower, ?_⟩
        exact fun s hs hbuildable => habove s hs hbuildable.succ
      obtain ⟨rule, hrule, hcovers⟩ := h
      have hchildren : Covers v w (fun s => table.rulesOf s ≠ [] ∧
          (node v w.toArray table depth (span :: above) s).Succeeds) rule.right span.start span.stop :=
        hcovers.mono fun s hs =>
          ⟨hs.rulesOf_ne_nil, ih hs hbelow (Nat.le_of_succ_le_succ hdepth)⟩
      have hrules := succeeds_byRules (ends_node depth (span :: above)) hrule hchildren
      exact hrules.imp fun _ => comesTo_node hspan

end Reconstruction

/-! ## Depth -/

/-- The spans of a table that do not stand above. -/
def Completions.fresh (table : Completions) (above : List Span) : List Span :=
  table.keys.filter fun s => decide (s ∉ above)

/-- A span with rules that comes to stand above is no longer fresh. -/
theorem Completions.length_fresh_cons_lt {table : Completions} {above : List Span} {span : Span}
    (hrules : table.rulesOf span ≠ []) (hspan : span ∉ above) :
    (table.fresh (span :: above)).length < (table.fresh above).length := by
  have hkey : span ∈ table.keys := by
    by_contra hnot
    exact hrules (Std.HashMap.getD_eq_fallback (fun hmem => hnot (Std.HashMap.mem_keys.mpr hmem)))
  have hfresh : table.fresh (span :: above) = (table.fresh above).filter fun s => decide (s ≠ span) := by
    rw [fresh, fresh, List.filter_filter]
    refine List.filter_congr ?_
    intro s _
    simp
  rw [hfresh, List.length_filter_lt_length_iff_exists]
  exact ⟨span, by simp [fresh, hkey, hspan], by simp⟩

/-- **The depth does not matter** once it exceeds the number of spans that may still come to stand above. -/
theorem Reconstruction.node_eq_of_fresh_lt {v : Vocabulary} {input : Array Symbol} {table : Completions}
    {depth depth' : Nat} {above : List Span} (h : (table.fresh above).length < depth)
    (h' : (table.fresh above).length < depth') (span : Span) :
    node v input table depth above span = node v input table depth' above span := by
  induction depth generalizing depth' above span with
  | zero => cases h
  | succ depth ih =>
    obtain ⟨depth', rfl⟩ := Nat.exists_eq_add_of_le' (Nat.one_le_of_lt h')
    refine OptionT.ext (StateT.ext fun left => ?_)
    rw [run_node, run_node]
    by_cases hstop : (decide (left = 0) || above.contains span) = true
    · rw [if_pos hstop, if_pos hstop]
    · rw [if_neg hstop, if_neg hstop]
      by_cases hrules : table.rulesOf span = []
      · rw [byRules, byRules, hrules]
        rfl
      · have hspan : span ∉ above := by
          intro hmem
          simp [hmem] at hstop
        -- One span less is fresh below this node, which leaves as much room in either depth.
        have hlt := Completions.length_fresh_cons_lt hrules hspan
        have hchild : node v input table depth (span :: above) =
            node v input table depth' (span :: above) :=
          funext fun s => ih (by omega) (by omega) s
        rw [hchild]

/-! ## The items of a chart -/

open Reconstruction

variable {g : Grammar} {w : Word} {steps p height : Nat} {chart : Chart} {item : Item}

/-- A rule whose right side is covered where it has been completed makes a tree one higher. -/
theorem buildable_of_covers (hbuild : Chart.build g steps w = some chart) (hitem : Charted g w p item)
    (hnone : item.next? = none)
    (h : Covers g.vocabulary w (Buildable g.vocabulary w chart.completionTable height)
      (item.rule.right.take item.dot) item.origin p) :
    Buildable g.vocabulary w chart.completionTable (height + 1)
      ⟨item.rule.left, item.origin, p⟩ := by
  rw [Item.take_of_next?_eq_none hnone] at h
  refine ⟨item.rule, Chart.mem_rulesOf_completionTable.mpr ?_, h⟩
  exact ⟨item, (Chart.mem_itemsAt_iff hbuild).mpr hitem, by rw [Item.isComplete, hnone]; rfl, rfl, rfl,
    rfl⟩

/-- **What an item has found can be covered** with trees of some height. -/
theorem Charted.exists_covers (hbuild : Chart.build g steps w = some chart) (h : Charted g w p item) :
    ∃ height, Covers g.vocabulary w (Buildable g.vocabulary w chart.completionTable height)
      (item.rule.right.take item.dot) item.origin p := by
  induction h with
  | start _ _ => exact ⟨0, .nil⟩
  | predict _ _ _ _ _ => exact ⟨0, .nil⟩
  | @scan p item c hitem hnext hc hinput ih =>
    obtain ⟨height, hcovers⟩ := ih
    rw [Item.take_advance hnext]
    exact ⟨height, hcovers.append (.terminal (hitem.next_mem_terminals hnext hc) hinput .nil)⟩
  | @complete p item waiting hitem hnone hwaiting hnext ih ihw =>
    obtain ⟨height, hcovers⟩ := ih
    obtain ⟨height', hcovers'⟩ := ihw
    -- The completed rule is one part more, and its tree is one higher than the trees inside it.
    have hspan := buildable_of_covers hbuild hitem hnone hcovers
    have hnot : item.rule.left ∉ g.vocabulary.terminals :=
      g.vocabulary.disjoint _ hitem.left_mem
    refine ⟨max height' (height + 1), ?_⟩
    rw [Item.take_advance hnext]
    refine (hcovers'.mono fun _ h => h.mono (Nat.le_max_left _ _)).append ?_
    exact .part hnot hitem.origin_le (hspan.mono (Nat.le_max_right _ _)) .nil

namespace Chart

/-- The start symbol has a tree of some height over every word that it yields. -/
theorem exists_buildable (hbuild : build g steps w = some chart) (h : g.Yields [g.start] w) :
    ∃ height, Buildable g.vocabulary w chart.completionTable height ⟨g.start, 0, w.length⟩ := by
  obtain ⟨item, hitem, hnone, horigin, hleft⟩ := exists_charted_complete_iff.mpr h
  obtain ⟨height, hcovers⟩ := hitem.exists_covers hbuild
  have hspan := buildable_of_covers hbuild hitem hnone hcovers
  rw [hleft, horigin] at hspan
  exact ⟨height + 1, hspan⟩

/-- **A word that the start symbol yields gets a tree**, and it is the same one for all numbers of attempts from some
number on. -/
theorem exists_tree? (hbuild : build g steps w = some chart) (h : g.Yields [g.start] w) :
    ∃ bound tree, ∀ attempts, bound ≤ attempts → chart.tree? g attempts w = some tree := by
  obtain ⟨height, hbuildable⟩ := exists_buildable hbuild h
  have hdepth : height ≤ max height ((chart.completionTable.fresh []).length + 1) :=
    Nat.le_max_left _ _
  obtain ⟨tree, used, hrun⟩ := succeeds_node hbuildable (List.forall_mem_nil _) hdepth
  -- From here on the depth is as good as the one above, and the attempts suffice.
  refine ⟨max used (max height ((chart.completionTable.fresh []).length + 1)), tree, ?_⟩
  intro attempts hattempts
  rw [tree?, node_eq_of_fresh_lt (by omega) (Nat.le_max_right _ _), hrun _ (by omega)]

/-- **Cutting cycles loses no tree.**  For every grammar and every input there is a bound such that a chart which may
take that many steps or more returns a tree exactly if it accepts.  It accepts the words of terminals that the start
symbol derives by rules for single nonterminals, and the tree is the same for all such numbers of steps. -/
theorem accepted_words_get_trees (g : Grammar) (w : Word) :
    ∃ bound, ∃ tree : Option SyntaxTree,
      (tree.isSome = true ↔
        (∀ c ∈ w, c ∈ g.vocabulary.terminals) ∧ g.RuleDerives [g.start] w) ∧
      ∀ b : Budget, bound ≤ b.chartSteps → ∃ completed derivation,
        (answer g b w).outcome = ⟨tree.isSome, some (.chart completed derivation tree)⟩ := by
  obtain ⟨steps, chart, hbuild⟩ : ∃ steps chart, build g steps w = some chart :=
    ⟨_, exists_build le_rfl⟩
  simp only [← Grammar.yields_iff, ← accepts_iff_yields hbuild]
  cases haccepts : chart.accepts g.start w.length with
  | true =>
    obtain ⟨bound, tree, htree⟩ := exists_tree? hbuild ((accepts_iff_yields hbuild).mp haccepts)
    refine ⟨max bound steps, some tree, by simp, fun b hb => ?_⟩
    obtain ⟨derivation, houtcome⟩ :=
      outcome_of_build (build_mono ((Nat.le_max_right _ _).trans hb) hbuild)
    rw [haccepts, if_pos rfl, htree _ ((Nat.le_max_left _ _).trans hb)] at houtcome
    exact ⟨_, derivation, houtcome⟩
  | false =>
    refine ⟨steps, none, by simp, fun b hb => ?_⟩
    obtain ⟨derivation, houtcome⟩ := outcome_of_build (build_mono hb hbuild)
    rw [haccepts, if_neg Bool.false_ne_true] at houtcome
    exact ⟨_, derivation, houtcome⟩

/-- A symbol that may turn into itself, double, or vanish has endlessly many trees over the same word, and gets
one. -/
theorem ambiguous_words_get_trees :
    ambiguous.RuleDerives ['S'] ['a', 'a'] ∧
    ∃ bound tree, ∀ b : Budget, bound ≤ b.chartSteps → ∃ completed derivation,
      (answer ambiguous b ['a', 'a']).outcome = ⟨true, some (.chart completed derivation (some tree))⟩ := by
  have hterminals : ∀ c ∈ ['a', 'a'], c ∈ ambiguous.vocabulary.terminals := by
    rw [List.forall_mem_cons, List.forall_mem_singleton]
    decide
  have hdouble : ambiguous.RuleStep ['S'] ['S', 'S'] :=
    ⟨⟨'S', ['S', 'S']⟩, by decide, by decide, [], [], rfl, rfl⟩
  have hfirst : ambiguous.RuleStep ['S', 'S'] ['a', 'S'] :=
    ⟨⟨'S', ['a']⟩, by decide, by decide, [], ['S'], rfl, rfl⟩
  have hsecond : ambiguous.RuleStep ['a', 'S'] ['a', 'a'] :=
    ⟨⟨'S', ['a']⟩, by decide, by decide, ['a'], [], rfl, rfl⟩
  have hderives : ambiguous.RuleDerives ['S'] ['a', 'a'] := .tail (.tail (.single hdouble) hfirst) hsecond
  obtain ⟨bound, tree, htree, hanswer⟩ := accepted_words_get_trees ambiguous ['a', 'a']
  obtain ⟨t, rfl⟩ := Option.isSome_iff_exists.mp (htree.mpr ⟨hterminals, hderives⟩)
  exact ⟨hderives, bound, t, hanswer⟩

end Chart

end PhraseStructure
