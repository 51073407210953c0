import PhraseStructure.Proofs.Enumeration
import Mathlib.Data.List.Lex

/-!
# Listings are in order

An enumeration visits forms in the order in which it discovers them, and sorts the words among them only at
its end.  This module says what comes out.  No form is visited twice, and none is visited once there are
enough words; so no two of the words found are the same, and there are at most as many as were asked for
(`harvest_spec`).  `Word.precedes` is a total order whose strict part is `Word.Before`: shorter words first,
and words of one length by their code points.  Sorting words that differ leaves them strictly increasing
(`pairwise_enumerate`).

Where a listing is shown, the empty word is spelled by its mark.  The mark is no symbol of any grammar, so
no other word is spelled like it, and reading the texts gives back the words in their order.

## Main definitions

* `Word.Before`: the strict order of a listing.

## Main results

* `Word.precedes_iff`: listings are sorted by this order.
* `Grammar.pairwise_enumerate`: the words of a listing are strictly increasing.
* `Grammar.listed_texts_in_order`: what a listing shows.
-/

namespace PhraseStructure

/-! ## The order of words -/

namespace Word

variable {u v w : Word}

/-- One word comes before another: it is shorter, or it has the same length and the first symbol in which the
two differ has the smaller code point. -/
def Before (v w : Word) : Prop :=
  v.length < w.length ∨ v.length = w.length ∧ List.Lex (fun a b : Symbol => a.toNat < b.toNat) v w

theorem alphabetic_iff :
    v.alphabetic w = true ↔ v = w ∨ List.Lex (fun a b : Symbol => a.toNat < b.toNat) v w := by
  induction v generalizing w with
  | nil =>
    cases w with
    | nil => simp [alphabetic]
    | cons b w => simp [alphabetic]
  | cons a v ih =>
    cases w with
    | nil => simp [alphabetic]
    | cons b w =>
      rw [alphabetic, Bool.or_eq_true, Bool.and_eq_true, decide_eq_true_eq, decide_eq_true_eq, ih,
        List.cons.injEq, List.cons_lex_cons_iff]
      tauto

/-- Listings are sorted by the order of words. -/
theorem precedes_iff : v.precedes w = true ↔ v = w ∨ v.Before w := by
  rw [precedes, Bool.or_eq_true, Bool.and_eq_true, decide_eq_true_eq, decide_eq_true_eq,
    alphabetic_iff, Before]
  constructor
  · rintro (hlt | ⟨hlen, heq | hlex⟩)
    · exact Or.inr (Or.inl hlt)
    · exact Or.inl heq
    · exact Or.inr (Or.inr ⟨hlen, hlex⟩)
  · rintro (rfl | hlt | ⟨hlen, hlex⟩)
    · exact Or.inr ⟨rfl, Or.inl rfl⟩
    · exact Or.inl hlt
    · exact Or.inr ⟨hlen, Or.inr hlex⟩

theorem alphabetic_total (v w : Word) : v.alphabetic w = true ∨ w.alphabetic v = true := by
  induction v generalizing w with
  | nil => exact Or.inl rfl
  | cons a v ih =>
    cases w with
    | nil => exact Or.inr rfl
    | cons b w =>
      simp only [alphabetic, Bool.or_eq_true, Bool.and_eq_true, decide_eq_true_eq]
      rcases Nat.lt_trichotomy a.toNat b.toNat with hlt | heq | hgt
      · exact Or.inl (Or.inl hlt)
      · -- Equal first symbols leave it to the rest.
        have hab := Char.toNat_inj.mp heq
        exact (ih w).imp (fun h => Or.inr ⟨hab, h⟩) (fun h => Or.inr ⟨hab.symm, h⟩)
      · exact Or.inr (Or.inl hgt)

theorem alphabetic_trans (h : u.alphabetic v = true) (h' : v.alphabetic w = true) :
    u.alphabetic w = true := by
  induction u generalizing v w with
  | nil => rfl
  | cons a u ih =>
    cases v with
    | nil => cases h
    | cons b v =>
      cases w with
      | nil => cases h'
      | cons c w =>
        simp only [alphabetic, Bool.or_eq_true, Bool.and_eq_true, decide_eq_true_eq] at h h' ⊢
        rcases h with hlt | ⟨rfl, h⟩
        · rcases h' with hlt' | ⟨rfl, -⟩
          · exact Or.inl (hlt.trans hlt')
          · exact Or.inl hlt
        · rcases h' with hlt' | ⟨rfl, h'⟩
          · exact Or.inl hlt'
          · exact Or.inr ⟨rfl, ih h h'⟩

theorem precedes_total (v w : Word) : (v.precedes w || w.precedes v) = true := by
  simp only [precedes, Bool.or_eq_true, Bool.and_eq_true, decide_eq_true_eq]
  rcases Nat.lt_trichotomy v.length w.length with hlt | heq | hgt
  · exact Or.inl (Or.inl hlt)
  · exact (alphabetic_total v w).imp (fun h => Or.inr ⟨heq, h⟩) (fun h => Or.inr ⟨heq.symm, h⟩)
  · exact Or.inr (Or.inl hgt)

theorem precedes_trans (u v w : Word) (h : u.precedes v = true) (h' : v.precedes w = true) :
    u.precedes w = true := by
  simp only [precedes, Bool.or_eq_true, Bool.and_eq_true, decide_eq_true_eq] at h h' ⊢
  rcases h with hlt | ⟨hlen, h⟩
  · left
    rcases h' with hlt' | ⟨hlen', -⟩
    · exact hlt.trans hlt'
    · exact hlt.trans_eq hlen'
  · rcases h' with hlt' | ⟨hlen', h'⟩
    · exact Or.inl (hlen.trans_lt hlt')
    · exact Or.inr ⟨hlen.trans hlen', alphabetic_trans h h'⟩

theorem Before.asymm (h : v.Before w) : ¬ w.Before v := by
  have hsymbols : Std.Asymm fun a b : Symbol => a.toNat < b.toNat := ⟨fun _ _ => Nat.lt_asymm⟩
  rcases h with hlt | ⟨hlen, hlex⟩
  · rintro (hlt' | ⟨hlen', -⟩)
    · exact Nat.lt_asymm hlt hlt'
    · omega
  · rintro (hlt' | ⟨-, hlex'⟩)
    · omega
    · exact (List.Lex.asymm _).asymm _ _ hlex hlex'

theorem Before.ne (h : v.Before w) : v ≠ w := by
  rintro rfl
  exact h.asymm h

/-- Words that stand in order are determined by being there. -/
theorem eq_of_pairwise_before {words words' : List Word} (h : words.Pairwise Before)
    (h' : words'.Pairwise Before) (hmem : ∀ w, w ∈ words ↔ w ∈ words') : words = words' := by
  -- Two lists of the same words, none twice, are permutations of each other, and only one of them is in order.
  have hperm := (List.perm_ext_iff_of_nodup (h.imp Before.ne) (h'.imp Before.ne)).mpr hmem
  exact hperm.eq_of_pairwise (fun _ _ _ _ hab hba => absurd hba hab.asymm) h h'

end Word

/-! ## The words found -/

namespace Grammar

/-- **What an enumeration has found**: no word twice, and no more words than were asked for. -/
theorem harvest_spec (g : Grammar) (b : Budget) (n : Nat) :
    (g.harvest b n).2.toList.Nodup ∧ (g.harvest b n).2.size ≤ n := by
  rcases hrun : Frontier.explore id (g.kept b)
    (fun words form => if g.vocabulary.allTerminal form then words.push form else words)
    (fun words => decide (n ≤ words.size)) b.enumerationSteps #[] (Frontier.singleton id [g.start])
    with ⟨left, words, final⟩
  have hharvest : (g.harvest b n).2 = words := congrArg (fun run => run.2.1) hrun
  obtain ⟨visited, hexplored, hwords, -, -, hbefore⟩ := Frontier.explore_run Frontier.Explored.visit
    (Frontier.explored_singleton id (g.kept b) [g.start]) hrun
  rw [hharvest]
  constructor
  · -- The words found are among the forms visited, in the order of the visits.
    have hnodup : visited.Nodup := by simpa using hexplored.nodup_visited
    rw [hwords, foldl_push_eq]
    exact hnodup.filter _
  · -- The last visit adds at most one word, and before it there were too few.
    rcases List.eq_nil_or_concat visited with rfl | ⟨before, form, rfl⟩
    · rw [hwords]
      exact Nat.zero_le n
    · have hfew := hbefore before form [] (List.concat_eq_append ..)
      rw [decide_eq_false_iff_not, not_le] at hfew
      rw [hwords, List.concat_eq_append, List.foldl_append, List.foldl_cons, List.foldl_nil]
      split
      · rw [Array.size_push]
        exact hfew
      · exact hfew.le

/-- **The words of a listing are strictly increasing.** -/
theorem pairwise_enumerate (g : Grammar) (b : Budget) (n : Nat) :
    (g.enumerate b n).1.Pairwise Word.Before := by
  have hsorted := List.pairwise_mergeSort Word.precedes_trans Word.precedes_total
    (g.harvest b n).2.toList
  have hnodup := (List.mergeSort_perm (g.harvest b n).2.toList Word.precedes).nodup_iff.mpr
    (g.harvest_spec b n).1
  refine hsorted.imp₂ (fun v w hle hne => ?_) hnodup
  exact (Word.precedes_iff.mp hle).resolve_left hne

theorem length_enumerate_le (g : Grammar) (b : Budget) (n : Nat) :
    (g.enumerate b n).1.length ≤ n := by
  rw [enumerate, List.length_mergeSort, Array.length_toList]
  exact (g.harvest_spec b n).2

/-! ## What is shown -/

/-- **A listing shows real words, each once and in order.**  There are at most as many texts as were asked
for.  Each stands for a word of terminals that is not too long, and that the start symbol derives through
forms that are not too long.  Read as words they are strictly increasing, so no text is shown twice. -/
theorem listed_texts_in_order (g : Grammar) (b : Budget) (n : Nat) :
    ((g.enumerate b n).1.map Word.shown).length ≤ n ∧
    (∀ text ∈ (g.enumerate b n).1.map Word.shown,
      (∀ c ∈ Word.read text, c ∈ g.vocabulary.terminals) ∧
        (Word.read text).length ≤ b.enumerationLength ∧
        g.DerivesWithin b.enumerationLength [g.start] (Word.read text)) ∧
    (((g.enumerate b n).1.map Word.shown).map Word.read).Pairwise Word.Before ∧
    ((g.enumerate b n).1.map Word.shown).Nodup := by
  -- A word of terminals is never spelled like the empty word.
  have hread : ∀ w ∈ (g.enumerate b n).1, Word.read w.shown = w :=
    fun w hw => read_shown_of_terminals (derivesWithin_of_mem_enumerate hw).1
  have hwords : ((g.enumerate b n).1.map Word.shown).map Word.read = (g.enumerate b n).1 := by
    rw [List.map_map]
    exact (List.map_congr_left hread).trans (List.map_id _)
  have hordered : (((g.enumerate b n).1.map Word.shown).map Word.read).Pairwise Word.Before := by
    rw [hwords]
    exact g.pairwise_enumerate b n
  refine ⟨?_, ?_, hordered, List.Nodup.of_map Word.read (hordered.imp Word.Before.ne)⟩
  · rw [List.length_map]
    exact g.length_enumerate_le b n
  · intro text htext
    obtain ⟨w, hw, rfl⟩ := List.mem_map.mp htext
    obtain ⟨hterminals, hwithin⟩ := derivesWithin_of_mem_enumerate hw
    rw [hread w hw]
    exact ⟨hterminals, length_le_of_mem_enumerate hw, hwithin⟩

example : (Grammar.ofRules "S" "ab" [("S", ["aSb", "ε"])] 'S').map
    (fun g => (g.enumerate {} 3).1.map Word.shown) = .ok ["ε", "ab", "aabb"] := by cbv

end Grammar

end PhraseStructure
