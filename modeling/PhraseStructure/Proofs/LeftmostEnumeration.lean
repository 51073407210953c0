import PhraseStructure.Proofs.Listing
import PhraseStructure.Proofs.Strategies

/-!
# Replacing from the left

An enumeration replaces the first occurrence of each left side and no other.  Where left sides are single
nonterminals nothing is lost by this.  The leftmost nonterminal of a form is the first occurrence of its left
side, so the enumeration can replace it; and a derivation of a word of terminals has to replace it sooner or
later, which it may as well do at once (`Replays.leftmost_first`).  Done again and again, this rearranges any
derivation of a word into one that an enumeration follows, in the same number of steps (`leads_of_replays`).

Without empty alternatives no form on the way is longer than the word, so that a limit on the length of forms
drops none of them (`leads_kept_of_replays`).  If moreover there are steps enough for all forms that fit, the
enumeration lists the whole language up to that length (`listing_is_complete`).

## Main results

* `Grammar.Replays.leftmost_first`: the leftmost nonterminal may be replaced first.
* `Grammar.leads_of_replays`: replacing from the left reaches every word, in as many steps as any derivation.
* `Grammar.listing_is_complete`: a large enough listing holds all words that are short enough.
-/

namespace PhraseStructure

/-- Of two occurrences of single symbols, one whose symbol is not found before the other is that other one,
or stands behind it. -/
theorem append_singleton_cases {u v u' v' : Word} {c c' : Symbol}
    (h : u' ++ [c'] ++ v' = u ++ [c] ++ v) (hc' : c' ∉ u) :
    u' = u ∧ c' = c ∧ v' = v ∨ ∃ m, u' = u ++ [c] ++ m ∧ v = m ++ [c'] ++ v' := by
  rw [List.append_assoc, List.append_assoc] at h
  -- Either `u'` is a beginning of `u` or the other way round, and `m` is what one has beyond the other.
  rcases List.append_eq_append_iff.mp h with ⟨m, rfl, hm⟩ | ⟨m, rfl, hm⟩
  · cases m with
    | nil =>
      obtain ⟨rfl, rfl⟩ := List.cons.inj hm
      exact Or.inl ⟨(List.append_nil u').symm, rfl, rfl⟩
    | cons x m =>
      -- Then `c'` would be the first symbol of `m`, which is a part of `u`.
      obtain ⟨rfl, -⟩ := List.cons.inj hm
      exact absurd (by simp) hc'
  · cases m with
    | nil =>
      obtain ⟨rfl, rfl⟩ := List.cons.inj hm
      exact Or.inl ⟨List.append_nil u, rfl, rfl⟩
    | cons x m =>
      obtain ⟨rfl, rfl⟩ := List.cons.inj hm
      exact Or.inr ⟨m, by simp, by simp⟩

/-- A symbol that is not found in front of an occurrence has its first occurrence there. -/
theorem head?_splits_singleton {u : Word} {c : Symbol} (hc : c ∉ u) (v : Word) :
    (splits [c] (u ++ [c] ++ v)).head? = some (u, v) := by
  induction u with
  | nil => simp [splits, stripFront]
  | cons a u ih =>
    rw [List.mem_cons, not_or] at hc
    obtain ⟨hne, hu⟩ := hc
    simp [splits, stripFront, hne, ← ih hu]

namespace Grammar

variable {g : Grammar} {b : Budget} {n k : Nat} {c : Symbol} {f r u v w : Word}
  {steps : List PhraseStructure.Step}

/-! ## Leftmost nonterminals -/

theorem mem_firstSuccessors_of_leftmost (hu : ∀ a ∈ u, a ∈ g.vocabulary.terminals)
    (hc : c ∈ g.vocabulary.nonterminals) (hr : r ∈ g.alternatives c) (v : Word) :
    u ++ r ++ v ∈ g.firstSuccessors (u ++ [c] ++ v) := by
  obtain ⟨p, hp, hleft, hr⟩ := mem_alternatives.mp hr
  have hfirst := head?_splits_singleton (fun hmem => g.vocabulary.disjoint c hc (hu c hmem)) v
  exact mem_firstSuccessors.mpr ⟨p, hp, u, v, by rw [hleft, hfirst], r, hr, rfl⟩

/-- A form has terminals only, or a leftmost nonterminal. -/
theorem terminals_or_exists_leftmost (hf : ∀ a ∈ f, g.vocabulary.isDeclared a = true) :
    (∀ a ∈ f, a ∈ g.vocabulary.terminals) ∨
      ∃ u c v, f = u ++ [c] ++ v ∧ (∀ a ∈ u, a ∈ g.vocabulary.terminals) ∧
        c ∈ g.vocabulary.nonterminals := by
  induction f with
  | nil => exact Or.inl (by simp)
  | cons a f ih =>
    obtain ⟨ha, hf⟩ := List.forall_mem_cons.mp hf
    rcases isDeclared_iff.mp ha with hterminal | hnonterminal
    · rcases ih hf with hall | ⟨u, c, v, rfl, hu, hc⟩
      · exact Or.inl (List.forall_mem_cons.mpr ⟨hterminal, hall⟩)
      · exact Or.inr ⟨a :: u, c, v, rfl, List.forall_mem_cons.mpr ⟨hterminal, hu⟩, hc⟩
    · exact Or.inr ⟨[], a, f, rfl, by simp, hnonterminal⟩

/-- **The leftmost nonterminal may be replaced first**: whatever a derivation of a word makes of it in the
end, it may do so at once, and what is left is one step shorter. -/
theorem Replays.leftmost_first (hlevel : g.level = .contextFree ∨ g.level = .regular)
    (hw : ∀ a ∈ w, a ∈ g.vocabulary.terminals) (h : g.Replays f steps w)
    (hform : f = u ++ [c] ++ v) (hu : ∀ a ∈ u, a ∈ g.vocabulary.terminals)
    (hc : c ∈ g.vocabulary.nonterminals) :
    ∃ r ∈ g.alternatives c, ∃ steps', g.Replays (u ++ r ++ v) steps' w ∧
      steps'.length + 1 = steps.length := by
  induction h generalizing v with
  | nil =>
    subst hform
    exact absurd (hw c (by simp)) (g.vocabulary.disjoint c hc)
  | @cons p r u' v' w steps hp hr hrest ih =>
    obtain ⟨c', hc', hleft⟩ := exists_left_eq hlevel hp
    have halternative : r ∈ g.alternatives c' := mem_alternatives.mpr ⟨p, hp, hleft, hr⟩
    rw [hleft] at hform
    have hbehind : c' ∉ u := fun hmem => g.vocabulary.disjoint c' hc' (hu c' hmem)
    rcases append_singleton_cases hform hbehind with ⟨rfl, rfl, rfl⟩ | ⟨m, rfl, rfl⟩
    · exact ⟨r, halternative, steps, hrest, rfl⟩
    · -- The step takes place behind the leftmost nonterminal, so it can wait until that is replaced.
      obtain ⟨r', hr', steps', hreplays, hlength⟩ := ih (v := m ++ r ++ v') hw (by simp)
      refine ⟨r', hr', ⟨p.left, r, u ++ r' ++ m ++ r ++ v'⟩ :: steps', ?_, ?_⟩
      · have hlater : g.Replays (u ++ r' ++ m ++ r ++ v') steps' w := by simpa using hreplays
        simpa [hleft] using Replays.cons hp hr hlater
      · rw [List.length_cons, List.length_cons, hlength]

/-- **Replacing from the left reaches every word** that is derived, in as many steps as the derivation. -/
theorem leads_of_replays (hlevel : g.level = .contextFree ∨ g.level = .regular)
    (hw : ∀ a ∈ w, a ∈ g.vocabulary.terminals) (h : g.Replays f steps w)
    (hf : ∀ a ∈ f, g.vocabulary.isDeclared a = true) (k : Nat) :
    Frontier.Leads (Frontier.stamped g.firstSuccessors) (f, k) (w, k + steps.length) := by
  -- The induction is on the number of steps: the steps themselves change as they are rearranged.
  induction hlength : steps.length generalizing f steps k with
  | zero =>
    rw [List.length_eq_zero_iff] at hlength
    subst hlength
    cases h
    exact .refl
  | succ count ih =>
    rcases terminals_or_exists_leftmost hf with hall | ⟨u, c, v, rfl, hu, hc⟩
    · -- From a word of terminals there is no step.
      cases h with
      | nil => cases hlength
      | cons hp _ _ =>
        obtain ⟨c, hc, hleft⟩ := exists_left_eq hlevel hp
        exact absurd (hall c (by simp [hleft])) (g.vocabulary.disjoint c hc)
    · obtain ⟨r, hr, steps', hreplays, hshorter⟩ := h.leftmost_first hlevel hw rfl hu hc
      have hdeclared := (step_of_mem_alternatives hr u v).isDeclared hf
      have hrest := ih hreplays hdeclared (k + 1) (by omega)
      have hmove : (u ++ r ++ v, k + 1) ∈ Frontier.stamped g.firstSuccessors (u ++ [c] ++ v, k) :=
        Frontier.mem_stamped.mpr ⟨mem_firstSuccessors_of_leftmost hu hc hr v, rfl⟩
      rw [show k + (count + 1) = k + 1 + count by omega]
      exact hrest.head hmove

/-! ## Forms that are kept -/

/-- Without empty alternatives, whatever leads to a short form is kept. -/
theorem leads_kept_of_leads (hlevel : g.level = .contextFree ∨ g.level = .regular)
    (hnonempty : ∀ p ∈ g.productions, [] ∉ p.alternatives) {node node' : Word × Nat}
    (h : Frontier.Leads (Frontier.stamped g.firstSuccessors) node node')
    (hshort : node'.1.length ≤ b.enumerationLength) :
    Frontier.Leads (Frontier.stamped (g.kept b)) node node' := by
  induction h with
  | refl => exact .refl
  | tail _ hmove ih =>
    obtain ⟨hfirst, hstamp⟩ := Frontier.mem_stamped.mp hmove
    have hgrows := (step_of_mem_firstSuccessors hfirst).length_le hlevel hnonempty
    refine (ih (hgrows.trans hshort)).tail (Frontier.mem_stamped.mpr ⟨?_, hstamp⟩)
    exact mem_kept.mpr ⟨hfirst, hshort⟩

/-- **An enumeration can reach every short word**, in as many steps as any derivation of it has. -/
theorem leads_kept_of_replays (hlevel : g.level = .contextFree ∨ g.level = .regular)
    (hnonempty : ∀ p ∈ g.productions, [] ∉ p.alternatives)
    (hw : ∀ a ∈ w, a ∈ g.vocabulary.terminals) (hshort : w.length ≤ b.enumerationLength)
    (h : g.Replays [g.start] steps w) :
    Frontier.Leads (Frontier.stamped (g.kept b)) ([g.start], 0) (w, steps.length) := by
  have hleads := leads_of_replays hlevel hw h (isDeclared_of_derives_start .refl) 0
  rw [Nat.zero_add] at hleads
  exact leads_kept_of_leads hlevel hnonempty hleads hshort

/-! ## Listing the language -/

/-- There are only so many words to list, so some listings are not full. -/
theorem exists_length_enumerate_lt (g : Grammar) (b : Budget) :
    ∃ n, (g.enumerate b n).1.length < n := by
  -- One more than there are words over the vocabulary up to the length of the forms that are kept.
  refine ⟨(wordsUpTo g.vocabulary.symbols.toList (max b.enumerationLength 1)).length + 1, ?_⟩
  apply Nat.lt_succ_of_le
  apply (List.subperm_of_subset ?_ ?_).length_le
  · exact (g.pairwise_enumerate b _).imp Word.Before.ne
  · intro w hw
    exact (derivesWithin_of_mem_enumerate hw).2.mem_wordsUpTo

/-- With steps for all forms that fit, a listing that is not full holds every short word. -/
theorem mem_enumerate_of_generates (hlevel : g.level = .contextFree ∨ g.level = .regular)
    (hnonempty : ∀ p ∈ g.productions, [] ∉ p.alternatives)
    (hsteps : (wordsUpTo g.vocabulary.symbols.toList (max b.enumerationLength 1)).length ≤
      b.enumerationSteps)
    (hfew : (g.enumerate b n).1.length < n) (hw : g.Generates w)
    (hshort : w.length ≤ b.enumerationLength) : w ∈ (g.enumerate b n).1 := by
  obtain ⟨steps, hreplays⟩ := exists_replays_iff.mpr hw.2
  have hleads := leads_kept_of_replays hlevel hnonempty hw.1 hshort hreplays
  refine mem_enumerate_of_leads ?_ hsteps hfew (Frontier.leads_of_leads_stamped hleads)
    (allTerminal_iff.mpr hw.1)
  intro f hf
  exact (derivesWithin_of_leads_kept hf).mem_wordsUpTo

/-- **A large enough listing is the language**, up to the length that the enumeration admits.  Let left sides
be single nonterminals and no alternative empty, and let the ceiling be at least the number of words over
the vocabulary up to that length.  Then the words of the language up to that length form a list, in order,
and every listing of at least so many words is this list. -/
theorem listing_is_complete (hlevel : g.level = .contextFree ∨ g.level = .regular)
    (hnonempty : ∀ p ∈ g.productions, [] ∉ p.alternatives)
    (hsteps : ∑ k ∈ Finset.range (max b.enumerationLength 1 + 1), g.vocabulary.symbols.card ^ k ≤
      b.enumerationSteps) :
    ∃ words : List Word, words.Pairwise Word.Before ∧
      (∀ w, w ∈ words ↔ g.Generates w ∧ w.length ≤ b.enumerationLength) ∧
      ∀ n, words.length ≤ n → (g.enumerate b n).1 = words := by
  rw [← Finset.length_toList, ← length_wordsUpTo] at hsteps
  have hsound : ∀ {n w}, w ∈ (g.enumerate b n).1 → g.Generates w ∧ w.length ≤ b.enumerationLength := by
    intro n w hw
    obtain ⟨hterminals, hwithin⟩ := derivesWithin_of_mem_enumerate hw
    exact ⟨⟨hterminals, hwithin.derives⟩, length_le_of_mem_enumerate hw⟩
  -- A listing that is not full holds the whole language, so the list in question exists.
  obtain ⟨many, hfew⟩ := g.exists_length_enumerate_lt b
  have hall : ∀ w, w ∈ (g.enumerate b many).1 ↔ g.Generates w ∧ w.length ≤ b.enumerationLength :=
    fun w => ⟨hsound, fun h => mem_enumerate_of_generates hlevel hnonempty hsteps hfew h.1 h.2⟩
  refine ⟨(g.enumerate b many).1, g.pairwise_enumerate b many, hall, ?_⟩
  intro n hn
  apply Word.eq_of_pairwise_before (g.pairwise_enumerate b n) (g.pairwise_enumerate b many)
  intro w
  have hsub : (g.enumerate b n).1 ⊆ (g.enumerate b many).1 := fun w hw => (hall w).mpr (hsound hw)
  refine ⟨fun hw => hsub hw, fun hw => ?_⟩
  -- The other listing may have ended because it was full: `n` may be just the number of words.
  by_cases hfull : n ≤ (g.enumerate b n).1.length
  · -- As many words as there are have been listed, all of them different.
    have hnodup := (g.pairwise_enumerate b n).imp Word.Before.ne
    have hperm := (List.subperm_of_subset hnodup hsub).perm_of_length_le (hn.trans hfull)
    exact hperm.mem_iff.mpr hw
  · obtain ⟨hgenerates, hshort⟩ := (hall w).mp hw
    exact mem_enumerate_of_generates hlevel hnonempty hsteps (not_le.mp hfull) hgenerates hshort

/-- Room for words of four symbols, and a step for each of the forms that fit. -/
def fourSymbols : Budget :=
  { enumerationLength := 4, enumerationSteps := 121 }

theorem listing_is_complete_nested :
    nested.level = .contextFree ∧ (∀ p ∈ nested.productions, [] ∉ p.alternatives) ∧
    ∑ k ∈ Finset.range (max 4 1 + 1), nested.vocabulary.symbols.card ^ k ≤ 121 ∧
    ∃ words : List Word, words.Pairwise Word.Before ∧
      (∀ w, w ∈ words ↔ nested.Generates w ∧ w.length ≤ 4) ∧
      (∀ n, words.length ≤ n → (nested.enumerate fourSymbols n).1 = words) ∧
      ['a', 'a', 'b', 'b'] ∈ words := by
  have hlevel : nested.level = .contextFree := by decide
  have hsteps : ∑ k ∈ Finset.range (max 4 1 + 1), nested.vocabulary.symbols.card ^ k ≤ 121 := by
    decide
  have hgenerates : nested.Generates ['a', 'a', 'b', 'b'] := by
    have hfirst : nested.Step ['S'] ['a', 'S', 'b'] := by decide
    have hsecond : nested.Step ['a', 'S', 'b'] ['a', 'a', 'b', 'b'] := by decide
    exact ⟨allTerminal_iff.mp (by decide), .tail (.tail .refl hfirst) hsecond⟩
  obtain ⟨words, hordered, hmem, hlisted⟩ :=
    listing_is_complete (b := fourSymbols) (Or.inl hlevel) (by decide) hsteps
  exact ⟨hlevel, by decide, hsteps, words, hordered, hmem, hlisted,
    (hmem _).mpr ⟨hgenerates, by decide⟩⟩

end Grammar

end PhraseStructure
