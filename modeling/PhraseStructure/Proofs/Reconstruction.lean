import Mathlib
import PhraseStructure.Proofs.Chart

/-!
# Trees that are rebuilt

The tree of an accepted word is rebuilt by attempts that may fail anywhere: because a span stands above
itself, because the input has another symbol, or because the attempts are used up in the middle of a row.
Whatever fails leaves nothing behind but a smaller number of attempts, so that a tree which comes out is made
of parts that came out.  This module says what such a tree is: a parse of the input in which no span stands
below itself.

The argument has two halves.  `Grown` is what rebuilding keeps: rules, spans and the spans above are as they
should be.  It holds of every tree that `Reconstruction.node` gives (`gives_node`), by induction on the depth and
inside that along the row.  Everything else is read off `Grown` by induction on the tree: what the leaves spell
(`Grown.yield`), that no span repeats (`Grown.notMem_above`), and that the replacements in the order of the
record are a leftmost derivation (`Grown.leftmost`).

## Main definitions

* `Attempt.Gives`: whatever an attempt gives has some property.
* `SyntaxTree.Tiles`: trees cover a span side by side.
* `SyntaxTree.Below`: one tree lies inside another.
* `SyntaxTree.IsParse`: a tree is a parse of a word without repetition.
* `Grammar.Leftmost`: a sequence of replacements, each of the leftmost nonterminal.

## Main results

* `Reconstruction.gives_node`: every tree that is rebuilt is grown.
* `Chart.returned_tree_is_parse`: a tree in an answer is a parse, and its record a leftmost derivation.
-/

namespace PhraseStructure

/-! ## Attempts -/

namespace Attempt

variable {α β : Type} {P : α → Prop} {Q : β → Prop}

theorem run_bind (x : Attempt α) (f : α → Attempt β) (n : Nat) :
    (x >>= f).run.run n =
      match x.run.run n with
      | (some a, left) => (f a).run.run left
      | (none, left) => (none, left) := by
  simp only [bind, OptionT.bind, OptionT.mk, OptionT.run, StateT.run, StateT.bind]
  rcases x n with ⟨_ | a, left⟩
  · rfl
  · rfl

theorem run_orElse (x y : Attempt α) (n : Nat) :
    (x <|> y).run.run n =
      match x.run.run n with
      | (some a, left) => (some a, left)
      | (none, left) => y.run.run left := by
  show StateT.run (OptionT.run (OptionT.orElse x fun _ => y)) n = _
  simp only [OptionT.orElse, OptionT.mk, OptionT.run, StateT.run, bind, StateT.bind]
  rcases x n with ⟨_ | a, left⟩
  · rfl
  · rfl

/-- Whatever an attempt gives, however many attempts are left, has a property. -/
def Gives (x : Attempt α) (P : α → Prop) : Prop :=
  ∀ n a, (x.run.run n).1 = some a → P a

theorem gives_pure {a : α} (h : P a) : Gives (pure a) P := by
  rintro n b ⟨⟩
  exact h

theorem gives_failure : Gives (failure : Attempt α) P := by
  rintro n a ⟨⟩

theorem Gives.bind {x : Attempt α} {f : α → Attempt β} (hx : Gives x P)
    (hf : ∀ a, P a → Gives (f a) Q) : Gives (x >>= f) Q := by
  intro n b hb
  rw [run_bind] at hb
  rcases hrun : x.run.run n with ⟨_ | a, left⟩
  · rw [hrun] at hb
    cases hb
  · rw [hrun] at hb
    exact hf a (hx n a (by rw [hrun])) left b hb

theorem gives_firstM {ι : Type} {f : ι → Attempt α} {xs : List ι} (h : ∀ x ∈ xs, Gives (f x) P) :
    Gives (xs.firstM f) P := by
  induction xs with
  | nil => exact gives_failure
  | cons x xs ih =>
    intro n a ha
    rw [List.firstM, run_orElse] at ha
    rcases hrun : (f x).run.run n with ⟨_ | b, left⟩
    · rw [hrun] at ha
      exact ih (fun y hy => h y (List.mem_cons_of_mem x hy)) left a ha
    · rw [hrun] at ha
      cases ha
      exact h x List.mem_cons_self n a (by rw [hrun])

end Attempt

/-! ## Parses -/

namespace SyntaxTree

variable {g : Grammar} {w u v : Word} {c : Symbol} {i j : Nat} {t tree : SyntaxTree}
  {children trees : List SyntaxTree} {above : List Span}

/-- Where the part of the word starts that a tree covers. -/
def start : SyntaxTree → Nat
  | leaf _ position => position
  | node _ start _ _ => start

/-- Where the part of the word stops that a tree covers. -/
def stop : SyntaxTree → Nat
  | leaf _ position => position + 1
  | node _ _ stop _ => stop

/-- The trees cover a span side by side, without gaps. -/
inductive Tiles : List SyntaxTree → Nat → Nat → Prop where
  | nil {i : Nat} : Tiles [] i i
  | cons {tree : SyntaxTree} {trees : List SyntaxTree} {j : Nat} :
      Tiles trees tree.stop j → Tiles (tree :: trees) tree.start j

/-- One tree lies inside another: it is one of the children, or lies inside one of them. -/
inductive Below : SyntaxTree → SyntaxTree → Prop where
  | child {t : SyntaxTree} {c : Symbol} {i j : Nat} {children : List SyntaxTree} :
      t ∈ children → Below t (node c i j children)
  | deeper {t t' : SyntaxTree} {c : Symbol} {i j : Nat} {children : List SyntaxTree} :
      Below t t' → t' ∈ children → Below t (node c i j children)

/-- A tree is a parse of a word from the start symbol, without a span that repeats inside itself. -/
structure IsParse (g : Grammar) (w : Word) (tree : SyntaxTree) : Prop where
  /-- The root is the start symbol over the whole word. -/
  root : ∃ children, tree = node g.start 0 w.length children
  /-- The symbols of the children of a node are an alternative of its symbol, and they tile its span. -/
  nodes : ∀ c i j children, node c i j children = tree ∨ Below (node c i j children) tree →
    children.map symbol ∈ g.alternatives c ∧ Tiles children i j
  /-- A leaf is a terminal, the symbol of the word at its position. -/
  leaves : ∀ c p, Below (leaf c p) tree → c ∈ g.vocabulary.terminals ∧ w[p]? = some c
  /-- The leaves spell the word. -/
  yield_eq : tree.yield = w
  /-- No node lies inside another one with the same symbol and span. -/
  acyclic : ∀ c i j children children', node c i j children = tree ∨ Below (node c i j children) tree →
    ¬ Below (node c i j children') (node c i j children)

/-- A tree that stands below some spans and has been put together as it should be. -/
inductive Grown (g : Grammar) (w : Word) : List Span → SyntaxTree → Prop where
  | leaf {above : List Span} {c : Symbol} {p : Nat} : c ∈ g.vocabulary.terminals → w[p]? = some c →
      Grown g w above (leaf c p)
  | node {above : List Span} {c : Symbol} {i j : Nat} {children : List SyntaxTree} :
      c ∈ g.vocabulary.nonterminals → children.map symbol ∈ g.alternatives c → Tiles children i j →
      (⟨c, i, j⟩ : Span) ∉ above → (∀ t ∈ children, Grown g w (⟨c, i, j⟩ :: above) t) →
      Grown g w above (node c i j children)

namespace Grown

/-- What lies inside a grown tree is grown, below more spans. -/
theorem of_below (h : Grown g w above tree) (ht : Below t tree) :
    ∃ above', Grown g w above' t ∧ above ⊆ above' ∧
      ∀ c i j children, tree = .node c i j children → (⟨c, i, j⟩ : Span) ∈ above' := by
  induction ht generalizing above with
  | child hmem =>
    obtain _ | ⟨-, -, -, -, hchildren⟩ := h
    refine ⟨_, hchildren _ hmem, List.subset_cons_self _ _, ?_⟩
    rintro c i j children ⟨⟩
    exact List.mem_cons_self
  | deeper _ hmem ih =>
    obtain _ | ⟨-, -, -, -, hchildren⟩ := h
    obtain ⟨above', hgrown, hsub, -⟩ := ih (hchildren _ hmem)
    refine ⟨above', hgrown, fun s hs => hsub (List.mem_cons_of_mem _ hs), ?_⟩
    rintro c i j children ⟨⟩
    exact hsub List.mem_cons_self

/-- A span does not lie inside itself. -/
theorem not_below {children' : List SyntaxTree} (h : Grown g w above (.node c i j children)) :
    ¬ Below (.node c i j children') (.node c i j children) := by
  intro hbelow
  obtain ⟨above', hgrown, -, hmem⟩ := h.of_below hbelow
  obtain _ | ⟨-, -, -, hnot, -⟩ := hgrown
  exact hnot (hmem c i j children rfl)

/-- What tiles a span spells the part of the word that it covers, if each tile does. -/
theorem yieldAll_of_tiles (htiles : Tiles trees i j)
    (h : ∀ t ∈ trees, t.start ≤ t.stop ∧ t.yield = w.slice t.start t.stop) :
    i ≤ j ∧ yieldAll trees = w.slice i j := by
  induction htiles with
  | nil => exact ⟨le_rfl, (w.slice_self _).symm⟩
  | @cons tree trees j _ ih =>
    obtain ⟨hle, hyield⟩ := h tree List.mem_cons_self
    obtain ⟨hle', hyield'⟩ := ih fun t ht => h t (List.mem_cons_of_mem tree ht)
    exact ⟨hle.trans hle', by rw [yieldAll, hyield, hyield', w.slice_append hle hle']⟩

/-- **The leaves of a grown tree spell the part of the word that it covers.** -/
theorem yield_eq (h : Grown g w above tree) :
    tree.start ≤ tree.stop ∧ tree.yield = w.slice tree.start tree.stop := by
  induction h with
  | leaf _ hp => exact ⟨Nat.le_succ _, by rw [yield, start, stop, Word.slice_succ hp]⟩
  | node _ _ htiles _ _ ih => exact yieldAll_of_tiles htiles ih

theorem isParse (h : Grown g w [] tree) (hroot : ∃ children, tree = .node g.start 0 w.length children) :
    IsParse g w tree where
  root := hroot
  nodes c i j children hnode := by
    obtain ⟨above, hgrown⟩ : ∃ above, Grown g w above (.node c i j children) := by
      rcases hnode with rfl | hbelow
      · exact ⟨[], h⟩
      · obtain ⟨above, hgrown, -⟩ := h.of_below hbelow
        exact ⟨above, hgrown⟩
    obtain _ | ⟨-, halternative, htiles, -, -⟩ := hgrown
    exact ⟨halternative, htiles⟩
  leaves c p hbelow := by
    obtain ⟨above, hgrown, -⟩ := h.of_below hbelow
    obtain ⟨hterminal, hp⟩ | _ := hgrown
    exact ⟨hterminal, hp⟩
  yield_eq := by
    rw [h.yield_eq.2]
    obtain ⟨children, rfl⟩ := hroot
    exact w.slice_zero_length
  acyclic c i j children children' hnode := by
    rcases hnode with rfl | hbelow
    · exact h.not_below
    · obtain ⟨above, hgrown, -⟩ := h.of_below hbelow
      exact hgrown.not_below

end Grown

end SyntaxTree

/-! ## Leftmost derivations -/

/-- Replacements that turn one form into another, one after the other and each of the leftmost
nonterminal. -/
inductive Grammar.Leftmost (g : Grammar) : Word → List Use → Word → Prop where
  | nil {f : Word} : Leftmost g f [] f
  | cons {use : Use} {uses : List Use} {u v f : Word} : (∀ c ∈ u, c ∈ g.vocabulary.terminals) →
      use.symbol ∈ g.vocabulary.nonterminals → use.right ∈ g.alternatives use.symbol →
      Leftmost g (u ++ use.right ++ v) uses f → Leftmost g (u ++ [use.symbol] ++ v) (use :: uses) f

theorem Grammar.Leftmost.trans {g : Grammar} {f f' f'' : Word} {uses uses' : List Use}
    (h : g.Leftmost f uses f') (h' : g.Leftmost f' uses' f'') : g.Leftmost f (uses ++ uses') f'' := by
  induction h with
  | nil => exact h'
  | cons hu hsymbol hright _ ih => exact .cons hu hsymbol hright (ih h')

namespace SyntaxTree

variable {g : Grammar} {w : Word} {tree : SyntaxTree} {trees : List SyntaxTree} {above : List Span}

/-- A tree whose replacements turn its symbol into the word at its leaves, behind any terminals. -/
def Unfolds (g : Grammar) (t : SyntaxTree) : Prop :=
  (∀ c ∈ t.yield, c ∈ g.vocabulary.terminals) ∧
    ∀ u v, (∀ c ∈ u, c ∈ g.vocabulary.terminals) →
      g.Leftmost (u ++ [t.symbol] ++ v) t.uses (u ++ t.yield ++ v)

/-- In a row of trees the first one is unfolded first, and its word is then in front of the others. -/
theorem leftmost_usesAll (h : ∀ t ∈ trees, Unfolds g t) {u v : Word}
    (hu : ∀ c ∈ u, c ∈ g.vocabulary.terminals) :
    g.Leftmost (u ++ trees.map symbol ++ v) (usesAll trees) (u ++ yieldAll trees ++ v) := by
  induction trees generalizing u with
  | nil => exact .nil
  | cons tree trees ih =>
    obtain ⟨hterminals, hunfolds⟩ := h tree List.mem_cons_self
    have hfront : ∀ c ∈ u ++ tree.yield, c ∈ g.vocabulary.terminals := by
      intro c hc
      rcases List.mem_append.mp hc with hc | hc
      · exact hu c hc
      · exact hterminals c hc
    have hfirst := hunfolds u (trees.map symbol ++ v) hu
    have hothers := ih (fun t ht => h t (List.mem_cons_of_mem tree ht)) hfront
    rw [List.append_assoc (u ++ tree.yield)] at hothers
    simpa [usesAll, yieldAll] using hfirst.trans hothers

theorem terminals_yieldAll (h : ∀ t ∈ trees, Unfolds g t) :
    ∀ c ∈ yieldAll trees, c ∈ g.vocabulary.terminals := by
  induction trees with
  | nil => simp [yieldAll]
  | cons tree trees ih =>
    intro c hc
    rw [yieldAll] at hc
    rcases List.mem_append.mp hc with hc | hc
    · exact (h tree List.mem_cons_self).1 c hc
    · exact ih (fun t ht => h t (List.mem_cons_of_mem tree ht)) c hc

/-- **The replacements of a grown tree, in the order of the record, are a leftmost derivation.** -/
theorem Grown.unfolds (h : Grown g w above tree) : Unfolds g tree := by
  induction h with
  | @leaf above c p hterminal _ =>
    refine ⟨?_, fun u v _ => .nil⟩
    intro d hd
    obtain rfl : d = c := by simpa [yield] using hd
    exact hterminal
  | @node above c i j children hsymbol halternative _ _ _ ih =>
    refine ⟨terminals_yieldAll ih, ?_⟩
    intro u v hu
    -- The symbol at the root gives way first, and then the children from left to right.
    exact @Grammar.Leftmost.cons g ⟨c, children.map symbol, i, j⟩ _ u v _ hu hsymbol halternative
      (leftmost_usesAll ih hu)

end SyntaxTree

/-! ## Rebuilding -/

/-- The rules of a table are those that were entered for the span. -/
theorem Completions.mem_rulesOf_add {table : Completions} {entry : Span × Rule} {span : Span} {rule : Rule} :
    rule ∈ (table.add entry).rulesOf span ↔ rule ∈ table.rulesOf span ∨ entry = (span, rule) := by
  obtain ⟨span', rule'⟩ := entry
  rw [rulesOf, rulesOf, add, Std.HashMap.getD_insert]
  by_cases h : span' = span
  · subst h
    simp [eq_comm]
  · simp [h]

theorem Completions.mem_rulesOf_foldl_add {entries : List (Span × Rule)} {table : Completions}
    {span : Span} {rule : Rule} :
    rule ∈ Completions.rulesOf (entries.foldl Completions.add table) span ↔
      rule ∈ table.rulesOf span ∨ (span, rule) ∈ entries := by
  induction entries generalizing table with
  | nil => simp
  | cons entry entries ih =>
    rw [List.foldl_cons, ih, mem_rulesOf_add, List.mem_cons, or_assoc, @eq_comm _ entry]

/-- The table of a chart has a rule for a span if the chart has completed the rule over the span. -/
theorem Chart.mem_rulesOf_completionTable {chart : Chart} {span : Span} {rule : Rule} :
    rule ∈ chart.completionTable.rulesOf span ↔
      ∃ item ∈ chart.itemsAt span.stop, item.isComplete = true ∧ item.rule = rule ∧
        rule.left = span.symbol ∧ item.origin = span.start := by
  have hempty : rule ∉ Completions.rulesOf (∅ : Completions) span := by simp [Completions.rulesOf]
  rw [completionTable, Completions.mem_rulesOf_foldl_add, or_iff_right hempty, completions]
  simp only [List.mem_flatMap, List.mem_map, List.mem_filter, Prod.exists, Prod.mk.injEq,
    List.mem_zipIdx_iff_getElem?, Array.getElem?_toList]
  constructor
  · rintro ⟨set, stop, hset, item, ⟨hitem, hcomplete⟩, rfl, rfl⟩
    refine ⟨item, ?_, hcomplete, rfl, rfl, rfl⟩
    rw [itemsAt, hset]
    exact hitem
  · rintro ⟨item, hitem, hcomplete, rfl, hleft, horigin⟩
    rw [itemsAt] at hitem
    cases hset : chart[span.stop]? with
    | none => simp [hset] at hitem
    | some set =>
      rw [hset] at hitem
      exact ⟨set, span.stop, hset, item, ⟨hitem, hcomplete⟩, by rw [hleft, horigin], rfl⟩

namespace Reconstruction

open SyntaxTree

variable {g : Grammar} {w : Word} {table : Completions} {above : List Span} {span : Span}

/-- A tree for a span by the first of its rules whose row can be filled with children. -/
def byRules (v : Vocabulary) (input : Array Symbol) (table : Completions)
    (child : Span → Attempt SyntaxTree) (span : Span) : Attempt SyntaxTree :=
  (table.rulesOf span).firstM fun rule => do
    let children ← row v input table child rule.right span.start span.stop
    return .node span.symbol span.start span.stop children

/-- A node uses up an attempt, unless none is left or its span stands above. -/
theorem run_node {v : Vocabulary} {input : Array Symbol} {depth : Nat} (left : Nat) :
    (node v input table (depth + 1) above span).run.run left =
      if left = 0 || above.contains span then (none, left)
      else (byRules v input table (node v input table depth (span :: above)) span).run.run
        (left - 1) := by
  rw [node]
  show (if (decide (left = 0) || above.contains span) = true then (failure : Attempt SyntaxTree)
    else (modifyThe Nat (· - 1) : Attempt PUnit) >>= fun _ => _).run.run left = _
  by_cases hstop : (decide (left = 0) || above.contains span) = true
  · rw [if_pos hstop, if_pos hstop]
    rfl
  · rw [if_neg hstop, if_neg hstop]
    rfl

/-- Trees that fill a row of symbols from one position to another, below some spans. -/
structure Fills (g : Grammar) (w : Word) (above : List Span) (right : Word) (start stop : Nat)
    (trees : List SyntaxTree) : Prop where
  symbols : trees.map symbol = right
  tiles : Tiles trees start stop
  grown : ∀ t ∈ trees, Grown g w above t

theorem Fills.cons {tree : SyntaxTree} {trees : List SyntaxTree} {right : Word} {stop : Nat}
    (htree : Grown g w above tree) (h : Fills g w above right tree.stop stop trees) :
    Fills g w above (tree.symbol :: right) tree.start stop (tree :: trees) where
  symbols := by rw [List.map_cons, h.symbols]
  tiles := .cons h.tiles
  grown := List.forall_mem_cons.mpr ⟨htree, h.grown⟩

/-- Along a row everything is put together from what the attempts at its nodes give. -/
theorem gives_row {child : Span → Attempt SyntaxTree}
    (hchild : ∀ span, (child span).Gives fun t =>
      (∃ children, t = .node span.symbol span.start span.stop children) ∧ Grown g w above t)
    (right : Word) (start stop : Nat) :
    (row g.vocabulary w.toArray table child right start stop).Gives
      (Fills g w above right start stop) := by
  induction right generalizing start with
  | nil =>
    rw [row]
    split
    · next h =>
      subst h
      exact Attempt.gives_pure ⟨rfl, .nil, by simp⟩
    · exact Attempt.gives_failure
  | cons c right ih =>
    rw [row]
    split
    · next hterminal =>
      split
      · next h =>
        simp only [Bool.and_eq_true, decide_eq_true_eq, beq_iff_eq, List.getElem?_toArray] at h
        refine (ih (start + 1)).bind fun trees htrees => Attempt.gives_pure ?_
        exact Fills.cons (.leaf (Vocabulary.isTerminal_iff.mp hterminal) h.2) htrees
      · exact Attempt.gives_failure
    · refine Attempt.gives_firstM fun middle _ => ?_
      split
      · exact Attempt.gives_failure
      · refine (hchild _).bind fun tree htree => ?_
        obtain ⟨⟨children, rfl⟩, hgrown⟩ := htree
        exact (ih middle).bind fun trees htrees => Attempt.gives_pure (htrees.cons hgrown)

/-- **Every tree that is rebuilt is grown**, if the table holds rules of nonterminals. -/
theorem gives_node (htable : ∀ span, ∀ rule ∈ table.rulesOf span, rule.left = span.symbol ∧
      rule.left ∈ g.vocabulary.nonterminals ∧ rule.right ∈ g.alternatives rule.left)
    (depth : Nat) (above : List Span) (span : Span) :
    (node g.vocabulary w.toArray table depth above span).Gives fun t =>
      (∃ children, t = .node span.symbol span.start span.stop children) ∧ Grown g w above t := by
  -- The induction is on the depth: what the level below gives, the rows of this one are made of.
  induction depth generalizing above span with
  | zero => exact Attempt.gives_failure
  | succ depth ih =>
    rw [node]
    refine Attempt.Gives.bind (P := fun _ => True) (fun _ _ _ => trivial) fun left _ => ?_
    dsimp only
    split
    · exact Attempt.Gives.bind (P := fun _ => False) Attempt.gives_failure fun _ h => h.elim
    · next hfree =>
      refine Attempt.Gives.bind (P := fun _ => True) (fun _ _ _ => trivial) fun _ _ => ?_
      refine Attempt.gives_firstM fun rule hrule => ?_
      obtain ⟨hleft, hnonterminal, halternative⟩ := htable span rule hrule
      have hnot : span ∉ above := by simpa using fun h => hfree (by simp [h])
      refine (gives_row (ih (span :: above)) rule.right span.start span.stop).bind
        fun children hchildren => Attempt.gives_pure ⟨⟨children, rfl⟩, ?_⟩
      rw [hleft] at hnonterminal halternative
      exact .node hnonterminal (hchildren.symbols ▸ halternative) hchildren.tiles hnot
        hchildren.grown

end Reconstruction

namespace Chart

variable {g : Grammar} {w : Word}

theorem grown_of_tree? {steps attempts : Nat} {chart : Chart} {tree : SyntaxTree}
    (hbuild : build g steps w = some chart) (h : chart.tree? g attempts w = some tree) :
    (∃ children, tree = .node g.start 0 w.length children) ∧ SyntaxTree.Grown g w [] tree := by
  refine Reconstruction.gives_node ?_ attempts [] ⟨g.start, 0, w.length⟩ attempts tree h
  intro span rule hrule
  obtain ⟨item, hitem, -, rfl, hleft, -⟩ := mem_rulesOf_completionTable.mp hrule
  have hcharted := (mem_itemsAt_iff hbuild).mp hitem
  exact ⟨hleft, hcharted.left_mem, Grammar.mem_rules.mp hcharted.rule_mem⟩

/-- **A tree in the answer of a chart is a parse of the input** in which no span lies inside itself, and the
record of the derivation lists its replacements as a leftmost derivation of the input. -/
theorem returned_tree_is_parse {b : Budget} {completed derivation : List String} {tree : SyntaxTree}
    (h : (answer g b w).outcome.trace = some (.chart completed derivation (some tree))) :
    tree.IsParse g w ∧ derivation = tree.uses.map Use.text ∧
      g.Leftmost [g.start] tree.uses w := by
  rw [answer] at h
  cases hbuild : build g b.chartSteps w with
  | none =>
    rw [hbuild] at h
    cases h
  | some chart =>
    rw [hbuild] at h
    simp only [Option.some.injEq, Trace.chart.injEq] at h
    obtain ⟨-, hderivation, htree⟩ := h
    rw [htree] at hderivation
    have htree? : chart.tree? g b.chartSteps w = some tree := by
      split at htree
      · exact htree
      · cases htree
    obtain ⟨hroot, hgrown⟩ := grown_of_tree? hbuild htree?
    refine ⟨hgrown.isParse hroot, hderivation.symm, ?_⟩
    -- The root is the start symbol with nothing around it, and its leaves spell the input.
    have hyield := (hgrown.isParse hroot).yield_eq
    have hleftmost := hgrown.unfolds.2 [] [] (by simp)
    obtain ⟨children, rfl⟩ := hroot
    simpa [hyield, SyntaxTree.symbol] using hleftmost

/-- The first tree for two symbols among endlessly many: neither the unit rule nor the erased symbol is used. -/
def ambiguousTree : SyntaxTree :=
  .node 'S' 0 2 [.node 'S' 0 1 [.leaf 'a' 0], .node 'S' 1 2 [.leaf 'a' 1]]

theorem returned_tree_ambiguous :
    (answer ambiguous { chartSteps := 100, completedShown := 1 } ['a', 'a']).outcome.trace =
      some (.chart ["S → a •  [1, 2]"] ["S → SS  [0..2]", "S → a  [0..1]", "S → a  [1..2]"]
        (some ambiguousTree)) ∧
    ambiguousTree.IsParse ambiguous ['a', 'a'] ∧
    ambiguous.Leftmost ['S'] ambiguousTree.uses ['a', 'a'] := by
  have htrace : (answer ambiguous { chartSteps := 100, completedShown := 1 } ['a', 'a']).outcome.trace =
      some (.chart ["S → a •  [1, 2]"] ["S → SS  [0..2]", "S → a  [0..1]", "S → a  [1..2]"]
        (some ambiguousTree)) := by cbv
  obtain ⟨hparse, -, hleftmost⟩ := returned_tree_is_parse htrace
  exact ⟨htrace, hparse, hleftmost⟩

end Chart

end PhraseStructure
