import Mathlib
import PhraseStructure.Proofs.LeftmostEnumeration
import PhraseStructure.Proofs.Levels

/-!
# Which words are listed first

An enumeration goes through the forms layer by layer and stops at the word that makes its listing full.  What
comes first are therefore the words that take the fewest steps: of a word that is missing from a listing, every
derivation has at least as many steps as some derivation of each word that is there
(`exists_replays_le_of_notMem`).

Few steps need not mean few symbols.  `roundabout` derives a word of three symbols in one step and a word of one
symbol in two, and asked for one word it lists the longer one.  The two measures agree where every step brings the
same number of terminals, since a derivation then has a number of steps that is proportional to the length of its
word (`length_eq_of_replays`).  Regular grammars without empty alternatives are of this kind, and their listings
do hold the shortest words.

## Main results

* `Grammar.exists_replays_le_of_notMem`: words that take fewer steps are listed first.
* `Grammar.length_eq_of_replays`: how long a word is whose derivation brings equally many terminals in each step.
* `Grammar.fewest_steps_listed_first`: what is known about the words that are missing from a listing.
* `Grammar.roundabout_lists_longer`: a shorter word may be among them.
-/

namespace PhraseStructure.Grammar

variable {g : Grammar} {b : Budget} {n m : Nat} {f r v w : Word} {node : Word × Nat}
  {steps : List PhraseStructure.Step}

/-! ## Words that take fewer steps -/

/-- The stamp of a form that an enumeration reaches is the number of steps of some derivation. -/
theorem exists_replays_of_leads
    (h : Frontier.Leads (Frontier.stamped (g.kept b)) ([g.start], 0) node) :
    ∃ steps, g.Replays [g.start] steps node.1 ∧ steps.length = node.2 := by
  induction h with
  | refl => exact ⟨[], .nil, rfl⟩
  | tail _ hmove ih =>
    obtain ⟨steps, hreplays, hlength⟩ := ih
    obtain ⟨hkept, hstamp⟩ := Frontier.mem_stamped.mp hmove
    obtain ⟨s, hs, hform⟩ :=
      step_iff_mem_successors.mp (step_of_mem_firstSuccessors (mem_kept.mp hkept).1)
    refine ⟨steps ++ [s], hform ▸ hreplays.snoc hs, ?_⟩
    rw [List.length_append, List.length_singleton, hlength, hstamp]

/-- **Words that take fewer steps are listed first**: a short word that is missing takes at least as many
steps as any word that is listed, whatever ended the enumeration. -/
theorem exists_replays_le_of_notMem (hlevel : g.level = .contextFree ∨ g.level = .regular)
    (hnonempty : ∀ p ∈ g.productions, [] ∉ p.alternatives) (hv : v ∈ (g.enumerate b n).1)
    (hw : g.Generates w) (hmissing : w ∉ (g.enumerate b n).1)
    (hshort : w.length ≤ b.enumerationLength) (h : g.Replays [g.start] steps w) :
    ∃ steps', g.Replays [g.start] steps' v ∧ steps'.length ≤ steps.length := by
  obtain ⟨visited, frontier, history⟩ := g.exists_history b n
  obtain ⟨hvisited, -⟩ := (history.mem_enumerate v).mp hv
  obtain ⟨node, hnode, rfl⟩ := List.mem_map.mp hvisited
  obtain ⟨steps', hreplays, hlength⟩ :=
    exists_replays_of_leads (history.layered.leads node (List.mem_append_left _ hnode))
  refine ⟨steps', hreplays, ?_⟩
  -- Otherwise the missing word is in an earlier layer than the one listed, so it was visited before it.
  by_contra hless
  apply hmissing
  have hleads := leads_kept_of_replays hlevel hnonempty hw.1 hshort h
  obtain ⟨node', hnode', hform, -⟩ := history.layered.exists_visited_of_rank_lt
    (fun _ _ hmove => (Frontier.mem_stamped.mp hmove).2) Frontier.sameMoves_stamped hnode hleads
    (by simp only; omega)
  exact (history.mem_enumerate w).mpr
    ⟨List.mem_map.mpr ⟨node', hnode', hform⟩, allTerminal_iff.mpr hw.1⟩

/-! ## Steps and symbols -/

/-- **A derivation that brings equally many terminals in each step** ends in a word whose length tells the
number of steps. -/
theorem length_eq_of_replays (hlevel : g.level = .contextFree ∨ g.level = .regular)
    (hsame : ∀ p ∈ g.productions, ∀ r ∈ p.alternatives, r.countP g.vocabulary.isTerminal = m)
    (hw : ∀ c ∈ w, c ∈ g.vocabulary.terminals) (h : g.Replays f steps w) :
    w.length = f.countP g.vocabulary.isTerminal + m * steps.length := by
  induction h with
  | nil =>
    rw [List.length_nil, Nat.mul_zero, Nat.add_zero, List.countP_eq_length.mpr]
    exact fun c hc => Vocabulary.isTerminal_iff.mpr (hw c hc)
  | @cons p r u v w steps hp hr _ ih =>
    -- What is replaced holds no terminal, and what takes its place holds `m`.
    obtain ⟨c, hc, hleft⟩ := exists_left_eq hlevel hp
    have hreplaced : p.left.countP g.vocabulary.isTerminal = 0 := by
      simpa [hleft, Vocabulary.isTerminal] using g.vocabulary.disjoint c hc
    rw [ih hw]
    simp only [List.countP_append, hsame p hp r hr, hreplaced, List.length_cons, Nat.mul_add]
    omega

/-- Every alternative of a regular grammar holds one terminal, unless it is empty. -/
theorem countP_isTerminal_of_regular (hlevel : g.level = .regular) {p : Production}
    (hp : p ∈ g.productions) (hr : r ∈ p.alternatives) (hne : r ≠ []) :
    r.countP g.vocabulary.isTerminal = 1 := by
  obtain ⟨d, -, hfits⟩ := exists_direction hlevel
  cases (hfits p hp).2 r hr with
  | mark hmark => exact absurd (Word.isMark_iff.mp hmark) hne
  | terminal hword ha =>
    obtain rfl : r = [_] := hword
    simp [Vocabulary.isTerminal, ha]
  | rightPair hword ha hc =>
    obtain rfl : r = [_, _] := hword
    simp [Vocabulary.isTerminal, ha, g.vocabulary.disjoint _ hc]
  | leftPair hword hc ha =>
    obtain rfl : r = [_, _] := hword
    simp [Vocabulary.isTerminal, ha, g.vocabulary.disjoint _ hc]

/-! ## Missing words -/

/-- **What takes the fewest steps is listed first.**  Let left sides be single nonterminals and no alternative
empty, and let a word of the language be missing from a listing.  If the word is not too long for the
enumeration, it takes at least as many steps as any word that is listed.  It is at least as long as any of
them if all alternatives hold equally many terminals, and so it is at level 3. -/
theorem fewest_steps_listed_first (hlevel : g.level = .contextFree ∨ g.level = .regular)
    (hnonempty : ∀ p ∈ g.productions, [] ∉ p.alternatives) (hv : v ∈ (g.enumerate b n).1)
    (hw : g.Generates w) (hmissing : w ∉ (g.enumerate b n).1) :
    (w.length ≤ b.enumerationLength → ∀ other, g.Replays [g.start] other w →
      ∃ steps, g.Replays [g.start] steps v ∧ steps.length ≤ other.length) ∧
    (∀ m, 0 < m → (∀ p ∈ g.productions, ∀ r ∈ p.alternatives,
      r.countP g.vocabulary.isTerminal = m) → v.length ≤ w.length) ∧
    (g.level = .regular → v.length ≤ w.length) := by
  have hsteps : w.length ≤ b.enumerationLength → ∀ other, g.Replays [g.start] other w →
      ∃ steps, g.Replays [g.start] steps v ∧ steps.length ≤ other.length :=
    fun hshort other => exists_replays_le_of_notMem hlevel hnonempty hv hw hmissing hshort
  have hequal : ∀ m, 0 < m → (∀ p ∈ g.productions, ∀ r ∈ p.alternatives,
      r.countP g.vocabulary.isTerminal = m) → v.length ≤ w.length := by
    intro m hm hsame
    -- A shorter word is short enough for the enumeration, so it takes no fewer steps.
    by_contra hless
    have hlength := length_le_of_mem_enumerate hv
    obtain ⟨other, hother⟩ := exists_replays_iff.mpr hw.2
    obtain ⟨steps, hreplays, hle⟩ := hsteps (by omega) other hother
    -- Both lengths are proportional to the numbers of steps.
    have hlong := length_eq_of_replays hlevel hsame (derivesWithin_of_mem_enumerate hv).1 hreplays
    have hshort := length_eq_of_replays hlevel hsame hw.1 hother
    have hproduct := Nat.mul_le_mul_left m hle
    omega
  refine ⟨hsteps, hequal, ?_⟩
  intro hregular
  apply hequal 1 Nat.one_pos
  intro p hp r hr
  exact countP_isTerminal_of_regular hregular hp hr fun hnil => hnonempty p hp (hnil ▸ hr)

/-- A word of three symbols that takes one step, and a word of one symbol that takes two. -/
def roundabout : Grammar :=
  (Grammar.ofRules "SA" "a" [("S", ["aaa", "A"]), ("A", ["a"])] 'S').toOption.get rfl

theorem enumerate_roundabout : (roundabout.enumerate {} 1).1 = [['a', 'a', 'a']] := by cbv

theorem generates_roundabout : roundabout.Generates ['a'] := by
  have hfirst : roundabout.Step ['S'] ['A'] := by decide
  have hsecond : roundabout.Step ['A'] ['a'] := by decide
  exact ⟨allTerminal_iff.mp (by decide), .tail (.tail .refl hfirst) hsecond⟩

/-- The word of one symbol is missing because it takes more steps.  In a listing of a regular grammar what is
missing is longer. -/
theorem fewest_steps_roundabout :
    (roundabout.level = .contextFree ∧ (∀ p ∈ roundabout.productions, [] ∉ p.alternatives) ∧
      ['a', 'a', 'a'] ∈ (roundabout.enumerate {} 1).1 ∧ roundabout.Generates ['a'] ∧
      ['a'] ∉ (roundabout.enumerate {} 1).1 ∧
      ∀ other, roundabout.Replays ['S'] other ['a'] →
        ∃ steps, roundabout.Replays ['S'] steps ['a', 'a', 'a'] ∧ steps.length ≤ other.length) ∧
    (LinearWalk.backwards.level = .regular ∧
      (∀ p ∈ LinearWalk.backwards.productions, [] ∉ p.alternatives) ∧
      (LinearWalk.backwards.enumerate {} 1).1 = [['a', 'b']] ∧
      LinearWalk.backwards.Generates ['a', 'a', 'b'] ∧ ['a', 'b'].length ≤ ['a', 'a', 'b'].length) := by
  have hlevel : roundabout.level = .contextFree := by decide
  have hlisted : ['a', 'a', 'a'] ∈ (roundabout.enumerate {} 1).1 := by simp [enumerate_roundabout]
  have hmissing : ['a'] ∉ (roundabout.enumerate {} 1).1 := by simp [enumerate_roundabout]
  obtain ⟨hsteps, -⟩ := fewest_steps_listed_first (Or.inl hlevel) (by decide) hlisted
    generates_roundabout hmissing
  have hlevel' : LinearWalk.backwards.level = .regular := by decide
  have hlisting : (LinearWalk.backwards.enumerate {} 1).1 = [['a', 'b']] := by cbv
  have hgenerates : LinearWalk.backwards.Generates ['a', 'a', 'b'] := by
    have hfirst : LinearWalk.backwards.Step ['S'] ['A', 'b'] := by decide
    have hsecond : LinearWalk.backwards.Step ['A', 'b'] ['A', 'a', 'b'] := by decide
    have hthird : LinearWalk.backwards.Step ['A', 'a', 'b'] ['a', 'a', 'b'] := by decide
    exact ⟨allTerminal_iff.mp (by decide), .tail (.tail (.tail .refl hfirst) hsecond) hthird⟩
  obtain ⟨-, -, hregular⟩ := fewest_steps_listed_first (b := {}) (n := 1) (v := ['a', 'b'])
    (Or.inr hlevel') (by decide) (by simp [hlisting]) hgenerates (by simp [hlisting])
  exact ⟨⟨hlevel, by decide, hlisted, generates_roundabout, hmissing, hsteps (by decide)⟩,
    hlevel', by decide, hlisting, hgenerates, hregular hlevel'⟩

/-- A listing may leave out a word that is shorter than one it holds: asked for one word, `roundabout` lists
the longer of its two. -/
theorem roundabout_lists_longer :
    roundabout.level = .contextFree ∧ (∀ p ∈ roundabout.productions, [] ∉ p.alternatives) ∧
    (roundabout.enumerate {} 1).1.map Word.shown = ["aaa"] ∧
    (roundabout.enumerate {} 1).1 = [['a', 'a', 'a']] ∧ roundabout.Generates ['a'] ∧
    ['a'] ∉ (roundabout.enumerate {} 1).1 ∧ ['a'].length < ['a', 'a', 'a'].length :=
  ⟨by decide, by decide, by rw [enumerate_roundabout]; decide, enumerate_roundabout,
    generates_roundabout, by simp [enumerate_roundabout], by decide⟩

end PhraseStructure.Grammar
