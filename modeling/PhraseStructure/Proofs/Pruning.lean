import PhraseStructure.Proofs.Ceilings

/-!
# Pruning a search

A context-sensitive grammar is searched below the length of the word that is looked for, although the budget
may admit longer forms.  A form that is longer than the word leads to longer forms only, so all that the pruned
search leaves out is of no use.  That alone would keep the word accepted.  That it is accepted with the same
derivation, and in no more visits, is a matter of order: the queue of the pruned search is at all times the queue
of the full one without its long forms (`Frontier.Pruned`).  Both searches visit the short forms, and in the
same order; the long forms are visited by the full search alone.

No short form may be discovered from a long one for that, or the full search might come to know it from there
first.  The erasing of the start symbol is no exception, since the start symbol is short.

## Main definitions

* `Frontier.Prunes`: one exploration leaves out nodes of another one, none of them of any use.
* `Frontier.Pruned`: the states of both, side by side.
* `FormSearch.answerBelow`: the answer of the search below a given cap.

## Main results

* `Frontier.Pruned.visit_kept`, `Frontier.Pruned.visit_dropped`: what a visit does to both states.
* `Frontier.Prunes.search_found`: what the full search finds, the pruned search finds as well.
* `FormSearch.prunes`: a cap at the length of the word prunes.
* `FormSearch.pruning_keeps_answers`: pruning makes the search faster and changes nothing else.
-/

namespace PhraseStructure

/-! ## Explorations -/

namespace Frontier

variable {ν κ τ : Type} [BEq κ] [Hashable κ] {key : ν → κ} {expand expand' : ν → List ν}
  {goal : ν → Option τ} {keep : κ → Bool} {root node : ν} {visited : List ν}
  {frontier pruned rest : Frontier ν κ} {found : τ} {steps steps' : Nat}

/-- An exploration by `expand'` prunes one by `expand`: it keeps the nodes of some keys and leaves out the others.
What is left out is no goal, and it leads only to what is left out as well. -/
structure Prunes (key : ν → κ) (expand expand' : ν → List ν) (goal : ν → Option τ) (keep : κ → Bool)
    (root : ν) : Prop where
  /-- The root is kept. -/
  root_kept : keep (key root) = true
  /-- From a node that is kept, the same moves are made in the same order, as far as they are kept. -/
  kept : ∀ n, Leads expand root n → keep (key n) = true →
    expand' n = (expand n).filter fun m => keep (key m)
  /-- No move leads back from a node that is left out. -/
  dropped : ∀ n, Leads expand root n → keep (key n) = false → ∀ m ∈ expand n, keep (key m) = false
  /-- No goal is left out. -/
  goals : ∀ n, keep (key n) = false → goal n = none

/-- The states of an exploration and of a pruned one, side by side: in the pruned one the nodes that are kept wait
in the same order, and it knows the same keys among those that are kept. -/
structure Pruned (key : ν → κ) (keep : κ → Bool) (frontier pruned : Frontier ν κ) : Prop where
  /-- The nodes that wait. -/
  waiting : pruned.toList = frontier.toList.filter fun n => keep (key n)
  /-- The keys that are known. -/
  seen : ∀ k, keep k = true → (k ∈ pruned.seen ↔ k ∈ frontier.seen)

theorem exists_pop?_of_toList {nodes : List ν} (h : frontier.toList = node :: nodes) :
    ∃ rest, frontier.pop? = some (node, rest) ∧ rest.toList = nodes := by
  cases hpop : frontier.pop? with
  | none =>
    rw [toList_of_pop?_eq_none hpop] at h
    cases h
  | some popped =>
    obtain ⟨node', rest⟩ := popped
    rw [toList_of_pop? hpop] at h
    cases h
    exact ⟨rest, rfl, rfl⟩

theorem pruned_singleton (hroot : keep (key root) = true) :
    Pruned key keep (singleton key root) (singleton key root) where
  waiting := by simp [hroot]
  seen _ _ := Iff.rfl

section Lawful

variable [LawfulBEq κ]

/-- Among the nodes that are kept, the same ones are discovered whether or not the others are offered as well. -/
theorem newcomers_filter {seen seen' : Std.HashSet κ}
    (hseen : ∀ k, keep k = true → (k ∈ seen' ↔ k ∈ seen)) (nodes : List ν) :
    newcomers key seen' (nodes.filter fun n => keep (key n)) =
      (newcomers key seen nodes).filter fun n => keep (key n) := by
  induction nodes generalizing seen seen' with
  | nil => rfl
  | cons node nodes ih =>
    by_cases hkeep : keep (key node) = true
    · have hcontains : seen'.contains (key node) = seen.contains (key node) :=
        Bool.eq_iff_iff.mpr (hseen _ hkeep)
      rw [List.filter_cons, if_pos hkeep, newcomers, newcomers, hcontains]
      split
      · exact ih hseen
      · rw [List.filter_cons, if_pos hkeep, ih]
        intro k hk
        simp only [Std.HashSet.mem_insert, hseen k hk]
    · rw [List.filter_cons, if_neg hkeep, newcomers]
      split
      · exact ih hseen
      · rw [List.filter_cons, if_neg hkeep, ih]
        -- A key that is left out may become known on one side.
        intro k hk
        have hne : key node ≠ k := by
          rintro rfl
          exact hkeep hk
        simp only [Std.HashSet.mem_insert, beq_iff_eq, hne, false_or, hseen k hk]

/-- **A visit to a node that is kept** is the next visit of the pruned exploration, too. -/
theorem Pruned.visit_kept (h : Pruned key keep frontier pruned)
    (hpop : frontier.pop? = some (node, rest)) (hkeep : keep (key node) = true)
    (hmoves : expand' node = (expand node).filter fun m => keep (key m)) :
    ∃ rest', pruned.pop? = some (node, rest') ∧
      Pruned key keep ((expand node).foldl (offer key) rest)
        ((expand' node).foldl (offer key) rest') := by
  have hwaiting := h.waiting
  rw [toList_of_pop? hpop, List.filter_cons, if_pos hkeep] at hwaiting
  obtain ⟨rest', hpop', hrest'⟩ := exists_pop?_of_toList hwaiting
  have hseen : ∀ k, keep k = true → (k ∈ rest'.seen ↔ k ∈ rest.seen) := by
    rw [seen_of_pop? hpop, seen_of_pop? hpop']
    exact h.seen
  refine ⟨rest', hpop', ?_, ?_⟩
  · rw [toList_foldl_offer, toList_foldl_offer, hmoves, List.filter_append, hrest',
      newcomers_filter hseen]
  · intro k hk
    -- A key that is kept is among the moves of one exactly if it is among those of the other.
    have hmem : k ∈ (expand' node).map key ↔ k ∈ (expand node).map key := by
      simp only [hmoves, List.mem_map, List.mem_filter]
      constructor
      · rintro ⟨m, ⟨hm, -⟩, rfl⟩
        exact ⟨m, hm, rfl⟩
      · rintro ⟨m, hm, rfl⟩
        exact ⟨m, ⟨hm, hk⟩, rfl⟩
    rw [mem_seen_foldl_offer, mem_seen_foldl_offer, hseen k hk, hmem]

/-- **A visit to a node that is left out** makes no difference to the pruned exploration. -/
theorem Pruned.visit_dropped (h : Pruned key keep frontier pruned)
    (hpop : frontier.pop? = some (node, rest)) (hkeep : keep (key node) = false)
    (hmoves : ∀ m ∈ expand node, keep (key m) = false) :
    Pruned key keep ((expand node).foldl (offer key) rest) pruned := by
  have hwaiting := h.waiting
  rw [toList_of_pop? hpop, List.filter_cons, if_neg (by simp [hkeep])] at hwaiting
  refine ⟨?_, ?_⟩
  · have hnone : ((newcomers key rest.seen (expand node)).filter fun m => keep (key m)) = [] := by
      refine List.filter_eq_nil_iff.mpr ?_
      intro m hm
      simp [hmoves m ((newcomers_sublist _ _).subset hm)]
    rw [toList_foldl_offer, List.filter_append, hnone, List.append_nil, hwaiting]
  · intro k hk
    rw [mem_seen_foldl_offer, seen_of_pop? hpop, h.seen k hk]
    constructor
    · exact Or.inl
    · rintro (hseen | hmem)
      · exact hseen
      · obtain ⟨m, hm, rfl⟩ := List.mem_map.mp hmem
        rw [hmoves m hm] at hk
        cases hk

/-- **What the full exploration finds, the pruned one finds as well**, and with no more visits. -/
theorem Prunes.explore_found (h : Prunes key expand expand' goal keep root)
    (hexplored : Explored key expand root visited frontier) (hpruned : Pruned key keep frontier pruned)
    (hle : steps ≤ steps')
    (hrun : (explore key expand (fun _ n => goal n) Option.isSome steps none frontier).2.1 =
      some found) :
    (explore key expand' (fun _ n => goal n) Option.isSome steps' none pruned).2.1 = some found := by
  -- The induction is on the visits of the full exploration; the pruned one makes some of them.
  induction steps generalizing visited frontier pruned steps' with
  | zero => cases hrun
  | succ steps ih =>
    rw [explore, Option.isSome_none, if_neg Bool.false_ne_true] at hrun
    cases hpop : frontier.pop? with
    | none =>
      rw [hpop] at hrun
      cases hrun
    | some popped =>
      obtain ⟨node, rest⟩ := popped
      rw [hpop] at hrun
      dsimp only at hrun
      have hleads : Leads expand root node :=
        hexplored.leads node (by simp [toList_of_pop? hpop])
      have hexplored' := hexplored.visit hpop
      cases hkeep : keep (key node) with
      | false =>
        rw [h.goals node hkeep] at hrun
        exact ih hexplored' (hpruned.visit_dropped hpop hkeep (h.dropped node hleads hkeep))
          (Nat.le_of_succ_le hle) hrun
      | true =>
        obtain ⟨rest', hpop', hpruned'⟩ := hpruned.visit_kept hpop hkeep (h.kept node hleads hkeep)
        obtain ⟨left, rfl⟩ := Nat.exists_eq_add_of_le' (Nat.one_le_of_lt hle)
        rw [explore, Option.isSome_none, if_neg Bool.false_ne_true, hpop']
        dsimp only
        cases hgoal : goal node with
        | none =>
          rw [hgoal] at hrun
          exact ih hexplored' hpruned' (Nat.le_of_succ_le_succ hle) hrun
        | some result =>
          rw [hgoal, explore_of_enough rfl] at hrun
          rw [explore_of_enough rfl]
          exact hrun

theorem Prunes.search_found (h : Prunes key expand expand' goal keep root)
    (hfound : search key expand goal steps root = .found found) :
    search key expand' goal steps root = .found found := by
  rw [search_eq_found_iff] at hfound ⊢
  exact h.explore_found (explored_singleton key expand root) (pruned_singleton h.root_kept) le_rfl hfound

end Lawful

end Frontier

/-! ## Forms no longer than the word -/

namespace FormSearch

variable {g : Grammar} {b : Budget} {cap : Nat} {w : Word}

/-- The answer of the search below a cap, whatever the level of the grammar. -/
def answerBelow (g : Grammar) (cap steps : Nat) (target : Word) : Answer :=
  (search g cap steps target).answer Word.shown g.start (.searchGaveUp steps)

/-- The search answers below the longest form that the budget admits, or at level 1 below the pruned cap. -/
theorem answer_eq_answerBelow (hcap : b.lengthCap w.length = .ok cap) :
    answer g b w = .ok (answerBelow g
      (if g.level = .contextSensitive then min cap (max w.length 1) else cap) b.searchSteps w) :=
  answer_eq_of_cap_eq (cap_eq_ite hcap)

/-- **At level 1 a cap at the length of the word prunes**: no step leads from a longer form to a shorter one. -/
theorem prunes (hlevel : g.level = .contextSensitive) (cap : Nat) (w : Word) :
    Frontier.Prunes Node.form (moves g cap) (moves g (min cap (max w.length 1))) (finish? w)
      (fun f => decide (f.length ≤ max w.length 1)) ⟨[g.start], []⟩ where
  root_kept := by simp
  kept node _ _ := by
    simp only [moves, List.filter_map, List.filter_filter, Function.comp_def]
    congr 1
    refine List.filter_congr ?_
    intro s _
    simp [Bool.and_comm]
  dropped node hleads hlong node' hnode' := by
    have hderives := (exists_leads_iff.mp ⟨node, hleads, rfl⟩).derives
    obtain ⟨hstep, -⟩ := exists_mem_moves_iff.mp ⟨node', hnode', rfl⟩
    rw [decide_eq_false_iff_not] at hlong ⊢
    rcases Grammar.length_le_of_step hlevel hderives hstep with hle | ⟨hstart, -⟩
    · omega
    · rw [hstart, List.length_singleton] at hlong
      omega
  goals node hlong := by
    rw [decide_eq_false_iff_not] at hlong
    have hne : node.form ≠ w := by
      rintro rfl
      omega
    simp [finish?, hne]

theorem answerBelow_accepted_iff {steps : Nat} :
    (answerBelow g cap steps w).outcome.accepted = true ↔
      ∃ found, search g cap steps w = .found found :=
  Verdict.accepted_answer

/-- **Pruning only saves visits.**  At level 1 the search leaves out the forms that are longer than the word.  If
the search without pruning accepts, then so does the search, within the same ceiling and with the same
derivation.  If the search accepts, then the search without pruning gives the same answer once it may make visits
enough. -/
theorem pruning_keeps_answers (hlevel : g.level = .contextSensitive)
    (hcap : b.lengthCap w.length = .ok cap) :
    ∃ a, answer g b w = .ok a ∧
      ((answerBelow g cap b.searchSteps w).outcome.accepted = true →
        a = answerBelow g cap b.searchSteps w) ∧
      (a.outcome.accepted = true →
        ∃ bound, ∀ steps, bound ≤ steps → answerBelow g cap steps w = a) := by
  have hanswer := answer_eq_answerBelow (g := g) hcap
  rw [if_pos hlevel] at hanswer
  have hprunes := prunes hlevel cap w
  refine ⟨_, hanswer, ?_, ?_⟩
  · intro haccepted
    obtain ⟨found, hfound⟩ := answerBelow_accepted_iff.mp haccepted
    have hfound' := hprunes.search_found hfound
    rw [answerBelow, answerBelow, hfound, search, hfound']
  · intro haccepted
    obtain ⟨found, hfound⟩ := answerBelow_accepted_iff.mp haccepted
    have hwithin : g.DerivesWithin cap [g.start] w :=
      (derivesWithin_of_search_found hfound).mono (Nat.min_le_left _ _)
    refine ⟨∑ k ∈ Finset.range (max cap 1 + 1), g.vocabulary.symbols.card ^ k, ?_⟩
    intro steps hsteps
    obtain ⟨found', hfound'⟩ := (exists_found_search_iff hsteps).mpr hwithin
    -- What it finds is found by the pruned search too, which with steps enough finds one thing only.
    have hsame : Verdict.found found' = .found found := by
      rw [← Frontier.search_found_mono (Nat.le_max_left _ _) (hprunes.search_found hfound'),
        ← Frontier.search_found_mono (Nat.le_max_right _ _) hfound]
    rw [answerBelow, answerBelow, hfound', hsame, hfound]
    rfl

/-- With fourteen visits both searches accept.  With six visits the pruned search has come as far, and the other
one is still among the long forms. -/
theorem pruning_keeps_equalRuns :
    equalRuns.level = .contextSensitive ∧
    (∀ n, ({ searchSteps := n } : Budget).lengthCap 3 = .ok 100) ∧
    ((answerBelow equalRuns 100 14 ['a', 'b', 'c']).outcome.accepted = true ∧
      answer equalRuns { searchSteps := 14 } ['a', 'b', 'c'] =
        .ok (answerBelow equalRuns 100 14 ['a', 'b', 'c'])) ∧
    ((answerBelow equalRuns 100 6 ['a', 'b', 'c']).outcome.accepted = false ∧
      ∃ a, answer equalRuns { searchSteps := 6 } ['a', 'b', 'c'] = .ok a ∧
        a.outcome.accepted = true ∧
        ∃ bound, ∀ steps, bound ≤ steps → answerBelow equalRuns 100 steps ['a', 'b', 'c'] = a) := by
  have hlevel : equalRuns.level = .contextSensitive := by decide
  have hcap : ∀ n, ({ searchSteps := n } : Budget).lengthCap 3 = .ok 100 := fun _ => rfl
  have hfull : (answerBelow equalRuns 100 14 ['a', 'b', 'c']).outcome.accepted = true := by cbv
  obtain ⟨a, ha, hkept, -⟩ := pruning_keeps_answers (w := ['a', 'b', 'c']) hlevel (hcap 14)
  obtain ⟨a', ha', -, hregained⟩ := pruning_keeps_answers (w := ['a', 'b', 'c']) hlevel (hcap 6)
  have hshort : a'.outcome.accepted = true := by
    have hanswer := answer_eq_answerBelow (g := equalRuns) (w := ['a', 'b', 'c']) (hcap 6)
    rw [hanswer, hlevel] at ha'
    obtain rfl := Except.ok.inj ha'
    cbv
  refine ⟨hlevel, hcap, ⟨hfull, ?_⟩, by cbv, a', ha', hshort, hregained hshort⟩
  rw [ha, hkept hfull]

end FormSearch

end PhraseStructure
