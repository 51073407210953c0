import PhraseStructure.Enumeration
import PhraseStructure.Proofs.FormSearch
import PhraseStructure.Proofs.Layers

/-!
# What an enumeration lists

The enumeration of words is an exploration of sentential forms in which every production replaces the first
occurrence of its left side only.  Its *history* are the forms it has visited, each with the number of steps
that led to it; the words it lists are the visited forms of terminals (`exists_history`).

Replacing a first occurrence is a derivation step, so that everything listed is derived, and through forms
that the enumeration keeps (`derivesWithin_of_mem_enumerate`).  Conversely a listing that is shorter than
asked for holds all words that can be had by first occurrences, if there are no more forms than the ceiling
admits (`mem_enumerate_of_leads`).

## Main definitions

* `Grammar.kept`: the forms to which an enumeration moves on.
* `Grammar.History`: what an enumeration has done when it ends.

## Main results

* `Grammar.exists_history`: every enumeration has a history.
* `Grammar.derivesWithin_of_mem_enumerate`: what is listed is derived.
* `Grammar.mem_enumerate_of_leads`: when everything is listed.
-/

namespace PhraseStructure.Grammar

variable {g : Grammar} {b : Budget} {n : Nat} {f f' w : Word}

/-! ## First occurrences -/

theorem mem_firstSuccessors :
    f' ∈ g.firstSuccessors f ↔ ∃ p ∈ g.productions, ∃ before after,
      (splits p.left f).head? = some (before, after) ∧
        ∃ r ∈ p.alternatives, before ++ r ++ after = f' := by
  simp only [firstSuccessors, List.mem_flatMap]
  refine exists_congr fun p => and_congr_right fun _ => ?_
  cases splits p.left f with
  | nil => simp
  | cons split _ =>
    obtain ⟨before, after⟩ := split
    simp

theorem step_of_mem_firstSuccessors (h : f' ∈ g.firstSuccessors f) : g.Step f f' := by
  obtain ⟨p, hp, before, after, hsplit, r, hr, rfl⟩ := mem_firstSuccessors.mp h
  have hform := (mem_splits p.left_ne_nil).mp (List.mem_of_mem_head? hsplit)
  exact ⟨p, hp, r, hr, before, after, hform, rfl⟩

/-- The forms to which an enumeration moves on: those one step away by first occurrences that are not too
long. -/
def kept (g : Grammar) (b : Budget) (form : Word) : List Word :=
  (g.firstSuccessors form).filter fun f => f.length ≤ b.enumerationLength

theorem mem_kept :
    f' ∈ g.kept b f ↔ f' ∈ g.firstSuccessors f ∧ f'.length ≤ b.enumerationLength := by
  rw [kept, List.mem_filter, decide_eq_true_eq]

theorem derivesWithin_of_leads_kept (h : Frontier.Leads (g.kept b) [g.start] f) :
    g.DerivesWithin b.enumerationLength [g.start] f := by
  induction h with
  | refl => exact .refl
  | tail _ hmove ih =>
    obtain ⟨hfirst, hlen⟩ := mem_kept.mp hmove
    exact ih.tail ⟨step_of_mem_firstSuccessors hfirst, hlen⟩

/-! ## Histories -/

/-- What an enumeration of `n` words has done when it ends: the forms it has visited with the number of
steps that led to each, and those that still wait. -/
structure History (g : Grammar) (b : Budget) (n : Nat) (visited : List (Word × Nat))
    (frontier : Frontier (Word × Nat) Word) : Prop where
  /-- The forms were discovered one from another, those that are fewer steps away first. -/
  layered : Frontier.Layered Prod.fst (Frontier.stamped (g.kept b)) Prod.snd ([g.start], 0) visited
    frontier
  /-- The ceiling was respected. -/
  length_le : visited.length ≤ b.enumerationSteps
  /-- The words listed are the visited forms of terminals. -/
  mem_enumerate : ∀ w, w ∈ (g.enumerate b n).1 ↔
    w ∈ visited.map Prod.fst ∧ g.vocabulary.allTerminal w = true
  /-- The enumeration ended at its ceiling, with enough words, or with nothing left to visit. -/
  ended : visited.length = b.enumerationSteps ∨ n ≤ (g.enumerate b n).1.length ∨
    frontier.toList = []

/-- The words that are gathered from some forms. -/
theorem foldl_push_eq (p : Word → Bool) (forms : List Word) (words : Array Word) :
    (forms.foldl (fun words form => if p form then words.push form else words) words).toList =
      words.toList ++ forms.filter p := by
  induction forms generalizing words with
  | nil => simp
  | cons form forms ih =>
    rw [List.foldl_cons, ih]
    by_cases h : p form = true
    · simp [h]
    · simp [h]

/-- **Every enumeration has a history.** -/
theorem exists_history (g : Grammar) (b : Budget) (n : Nat) :
    ∃ visited frontier, g.History b n visited frontier := by
  rcases hrun : Frontier.explore id (g.kept b)
    (fun words form => if g.vocabulary.allTerminal form then words.push form else words)
    (fun words => decide (n ≤ words.size)) b.enumerationSteps #[] (Frontier.singleton id [g.start])
    with ⟨left, words, final⟩
  obtain ⟨visited, frontier, hlayered, hwords, hsteps, hend⟩ :=
    Frontier.explore_stamped hrun
  have hharvest : g.harvest b n = (left, words) := by
    have hkept : (fun form => (g.firstSuccessors form).filter fun f =>
      decide (f.length ≤ b.enumerationLength)) = g.kept b := rfl
    rw [harvest, hkept, hrun]
  have hlisted : (g.enumerate b n).1 = words.toList.mergeSort Word.precedes := by
    rw [enumerate, hharvest]
  have hgathered : words.toList = (visited.map Prod.fst).filter g.vocabulary.allTerminal := by
    rw [hwords, foldl_push_eq]
    rfl
  refine ⟨visited, frontier, hlayered, by omega, ?_, ?_⟩
  · intro w
    rw [hlisted, List.mem_mergeSort, hgathered, List.mem_filter]
  · rcases hend with hzero | henough | hwaiting
    · exact Or.inl (by omega)
    · refine Or.inr (Or.inl ?_)
      rw [hlisted, List.length_mergeSort, Array.length_toList]
      exact of_decide_eq_true henough
    · exact Or.inr (Or.inr hwaiting)

/-! ## What is listed, and when everything is -/

theorem allTerminal_iff : g.vocabulary.allTerminal w = true ↔ ∀ c ∈ w, c ∈ g.vocabulary.terminals := by
  simp only [Vocabulary.allTerminal, List.all_eq_true, Vocabulary.isTerminal_iff]

/-- No word of terminals is spelled like the empty word, since the mark is no terminal. -/
theorem read_shown_of_terminals (h : ∀ c ∈ w, c ∈ g.vocabulary.terminals) : Word.read w.shown = w := by
  apply Word.read_shown
  rintro rfl
  exact g.vocabulary.mark_notMem_terminals (h emptyMark (List.mem_singleton_self _))

theorem leads_of_mem_enumerate (h : w ∈ (g.enumerate b n).1) :
    g.vocabulary.allTerminal w = true ∧ Frontier.Leads (g.kept b) [g.start] w := by
  obtain ⟨visited, frontier, history⟩ := g.exists_history b n
  obtain ⟨hvisited, hterminal⟩ := (history.mem_enumerate w).mp h
  obtain ⟨node, hnode, rfl⟩ := List.mem_map.mp hvisited
  have hleads := history.layered.leads node (List.mem_append_left _ hnode)
  exact ⟨hterminal, Frontier.leads_of_leads_stamped hleads⟩

/-- **What is listed is derived**: it consists of terminals, and the start symbol derives it through forms
that are not too long for the enumeration. -/
theorem derivesWithin_of_mem_enumerate (h : w ∈ (g.enumerate b n).1) :
    (∀ c ∈ w, c ∈ g.vocabulary.terminals) ∧
      g.DerivesWithin b.enumerationLength [g.start] w := by
  obtain ⟨hterminal, hleads⟩ := leads_of_mem_enumerate h
  exact ⟨allTerminal_iff.mp hterminal, derivesWithin_of_leads_kept hleads⟩

theorem length_le_of_mem_enumerate (h : w ∈ (g.enumerate b n).1) :
    w.length ≤ b.enumerationLength := by
  obtain ⟨hterminals, hwithin⟩ := derivesWithin_of_mem_enumerate h
  cases hwithin with
  | refl =>
    -- The start symbol is no word of terminals.
    have hstart := hterminals g.start (List.mem_singleton_self _)
    exact absurd hstart (g.vocabulary.disjoint _ g.start_mem)
  | tail _ hstep => exact hstep.2

/-- **When everything is listed**: if the forms that can be had by first occurrences are no more than the
ceiling, an enumeration lists as many words as it was asked for, or all words that can be had. -/
theorem mem_enumerate_of_leads {forms : List Word}
    (hforms : ∀ f, Frontier.Leads (g.kept b) [g.start] f → f ∈ forms)
    (hsteps : forms.length ≤ b.enumerationSteps) (hfew : (g.enumerate b n).1.length < n)
    (hw : Frontier.Leads (g.kept b) [g.start] w)
    (hterminal : g.vocabulary.allTerminal w = true) : w ∈ (g.enumerate b n).1 := by
  obtain ⟨visited, frontier, history⟩ := g.exists_history b n
  have hsub : (visited ++ frontier.toList).map Prod.fst ⊆ forms := by
    intro f hf
    obtain ⟨node, hnode, rfl⟩ := List.mem_map.mp hf
    exact hforms _ (Frontier.leads_of_leads_stamped (history.layered.leads node hnode))
  have hle := (List.subperm_of_subset history.layered.nodup hsub).length_le
  rw [List.length_map, List.length_append] at hle
  have hwaiting : frontier.toList = [] := by
    rcases history.ended with hceiling | henough | hwaiting
    · -- The forms visited are as many as there can be, so none waits.
      exact List.eq_nil_of_length_eq_zero (by omega)
    · omega
    · exact hwaiting
  obtain ⟨k, hleads⟩ := Frontier.exists_leads_stamped (k := 0) hw
  obtain ⟨node, hnode, hkey⟩ :=
    history.layered.exists_visited Frontier.sameMoves_stamped hwaiting hleads
  exact (history.mem_enumerate w).mpr ⟨List.mem_map.mpr ⟨node, hnode, hkey⟩, hterminal⟩

/-- If there is one word only, it is listed as soon as any word is asked for. -/
theorem mem_enumerate_of_only (forms : List Word) (hstart : [g.start] ∈ forms)
    (hclosed : ∀ f ∈ forms, ∀ f' ∈ g.kept b f, f' ∈ forms)
    (hsteps : forms.length ≤ b.enumerationSteps)
    (honly : ∀ f ∈ forms, g.vocabulary.allTerminal f = true → f = w)
    (hw : Frontier.Leads (g.kept b) [g.start] w)
    (hterminal : g.vocabulary.allTerminal w = true) (hn : 0 < n) : w ∈ (g.enumerate b n).1 := by
  have hforms : ∀ f, Frontier.Leads (g.kept b) [g.start] f → f ∈ forms := by
    intro f h
    induction h with
    | refl => exact hstart
    | tail _ hmove ih => exact hclosed _ ih _ hmove
  by_cases hfew : (g.enumerate b n).1.length < n
  · exact mem_enumerate_of_leads hforms hsteps hfew hw hterminal
  · -- Something is listed, and that can only be the word.
    obtain ⟨v, hv⟩ := List.exists_mem_of_length_pos (by omega : 0 < (g.enumerate b n).1.length)
    obtain ⟨hvterminal, hvleads⟩ := leads_of_mem_enumerate hv
    rwa [honly v (hforms v hvleads) hvterminal] at hv

end PhraseStructure.Grammar
