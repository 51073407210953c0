import PhraseStructure.Proofs.Exploration
import PhraseStructure.Proofs.Language
import PhraseStructure.Recognition.FormSearch

/-!
# The search over sentential forms decides membership

The search visits exactly the forms that the start symbol derives without a form longer than the cap,
and it knows a form by its spelling alone.  Such forms are words over the vocabulary, so there are only
finitely many of them, and with a ceiling at their number the search always comes to an end
(`exists_found_search_iff`).  What it then accepts is what can be derived below its cap, at every level
(`answer_accepted_iff_derivesWithin`).

For context-sensitive grammars the cap costs nothing: a form longer than the target leads nowhere.  There
the search decides membership outright.

## Main definitions

* `Grammar.DerivesWithin`: derivations whose forms after the first fit a cap.

## Main results

* `exists_found_search_iff`: with enough steps, the search finds exactly what can be derived below its cap.
* `answer_accepted_iff_derivesWithin`: and this is what it accepts.
* `answer_accepted_iff_derives`: for a context-sensitive grammar it finds exactly what can be derived.
-/

namespace PhraseStructure

/-- One form can be turned into another through forms that fit a cap, the first one apart. -/
def Grammar.DerivesWithin (g : Grammar) (cap : Nat) : Word → Word → Prop :=
  Relation.ReflTransGen fun f f' => g.Step f f' ∧ f'.length ≤ cap

namespace Grammar

variable {g : Grammar} {cap : Nat} {f w : Word}

theorem DerivesWithin.derives (h : g.DerivesWithin cap f w) : g.Derives f w := by
  induction h with
  | refl => exact .refl
  | tail _ hstep ih => exact ih.tail hstep.1

theorem DerivesWithin.length_le (h : g.DerivesWithin cap f w) : w.length ≤ max cap f.length := by
  cases h with
  | refl => exact Nat.le_max_right _ _
  | tail _ hstep => exact hstep.2.trans (Nat.le_max_left _ _)

theorem DerivesWithin.mono {cap' : Nat} (hle : cap ≤ cap') (h : g.DerivesWithin cap f w) :
    g.DerivesWithin cap' f w := by
  induction h with
  | refl => exact .refl
  | tail _ hstep ih => exact ih.tail ⟨hstep.1, hstep.2.trans hle⟩

/-- Forms that fit a cap are among the words of bounded length over the vocabulary. -/
theorem DerivesWithin.mem_wordsUpTo (h : g.DerivesWithin cap [g.start] f) :
    f ∈ wordsUpTo g.vocabulary.symbols.toList (max cap 1) := by
  apply PhraseStructure.mem_wordsUpTo h.length_le
  intro c hc
  rw [Finset.mem_toList, Vocabulary.mem_symbols]
  exact isDeclared_of_derives_start h.derives c hc

/-- At level 1 no step on the way to a word leads to a form longer than the word, whatever else is known
about the steps. -/
theorem reflTransGen_within (hlevel : g.level = .contextSensitive) {Move : Word → Word → Prop}
    (hmove : ∀ f f', Move f f' → g.Step f f') (hf : Relation.ReflTransGen Move [g.start] f)
    (hw : g.Derives f w) :
    Relation.ReflTransGen (fun f f' => Move f f' ∧ f'.length ≤ max w.length 1) [g.start] f := by
  -- Every form on the way leads to `w`, hence `w` stays fixed while the form grows step by step.
  have hderives : ∀ f, Relation.ReflTransGen Move [g.start] f → g.Derives [g.start] f := by
    intro f h
    exact derives_iff_reflTransGen.mpr (Relation.ReflTransGen.mono hmove _ _ h)
  induction hf with
  | refl => exact .refl
  | tail hd hstep ih =>
    have hlen := length_le_of_derives hlevel ((hderives _ hd).tail (hmove _ _ hstep)) hw
    exact (ih (.head (hmove _ _ hstep) hw)).tail ⟨hstep, hlen⟩

/-- **At level 1 a cap at the length of the word costs nothing.** -/
theorem derivesWithin_iff_derives (hlevel : g.level = .contextSensitive) :
    g.DerivesWithin (max w.length 1) [g.start] w ↔ g.Derives [g.start] w := by
  refine ⟨DerivesWithin.derives, ?_⟩
  intro h
  exact reflTransGen_within hlevel (fun _ _ hstep => hstep) (derives_iff_reflTransGen.mp h) .refl

/-- At level 1 a cap may be lowered to the length of the word. -/
theorem DerivesWithin.min_length (hlevel : g.level = .contextSensitive)
    (h : g.DerivesWithin cap [g.start] w) :
    g.DerivesWithin (min cap (max w.length 1)) [g.start] w := by
  have hwithin := reflTransGen_within hlevel (fun _ _ hstep => hstep.1) h .refl
  refine Relation.ReflTransGen.mono ?_ _ _ hwithin
  rintro f f' ⟨⟨hstep, hcap⟩, hlen⟩
  exact ⟨hstep, le_min hcap hlen⟩

end Grammar

namespace FormSearch

variable {g : Grammar} {cap steps : Nat} {f w : Word} {node : Node}

theorem mem_moves {node' : Node} :
    node' ∈ moves g cap node ↔ ∃ s ∈ g.successors node.form, s.form.length ≤ cap ∧
      ⟨s.form, s :: node.path⟩ = node' := by
  simp only [moves, List.mem_map, List.mem_filter, decide_eq_true_eq, and_assoc]

theorem path_length_of_mem_moves {node' : Node} (h : node' ∈ moves g cap node) :
    node'.path.length = node.path.length + 1 := by
  obtain ⟨s, -, -, rfl⟩ := mem_moves.mp h
  rfl

/-- The forms of the nodes that follow a node are the forms one step away that fit the cap. -/
theorem exists_mem_moves_iff :
    (∃ node' ∈ moves g cap node, node'.form = f) ↔ g.Step node.form f ∧ f.length ≤ cap := by
  rw [Grammar.step_iff_mem_successors]
  constructor
  · rintro ⟨node', hnode', rfl⟩
    obtain ⟨s, hs, hlen, rfl⟩ := mem_moves.mp hnode'
    exact ⟨⟨s, hs, rfl⟩, hlen⟩
  · rintro ⟨⟨s, hs, rfl⟩, hlen⟩
    exact ⟨_, mem_moves.mpr ⟨s, hs, hlen, rfl⟩, rfl⟩

/-- **The search visits what can be derived below the cap.** -/
theorem exists_leads_iff :
    (∃ node, Frontier.Leads (moves g cap) ⟨[g.start], []⟩ node ∧ node.form = f) ↔
      g.DerivesWithin cap [g.start] f := by
  constructor
  · rintro ⟨node, hnode, rfl⟩
    induction hnode with
    | refl => exact .refl
    | tail _ hmove ih => exact ih.tail (exists_mem_moves_iff.mp ⟨_, hmove, rfl⟩)
  · intro h
    induction h with
    | refl => exact ⟨_, .refl, rfl⟩
    | tail _ hstep ih =>
      obtain ⟨node, hnode, rfl⟩ := ih
      obtain ⟨node', hmove, hform⟩ := exists_mem_moves_iff.mpr hstep
      exact ⟨node', hnode.tail hmove, hform⟩

theorem finish?_ne_none_iff : finish? w node ≠ none ↔ node.form = w := by
  simp [finish?]

theorem finish?_eq_some_iff {found : List Step} :
    finish? w node = some found ↔ node.form = w ∧ node.path.reverse = found := by
  simp [finish?]

/-- What the search finds can be derived below the cap. -/
theorem derivesWithin_of_search_found {found : List Step}
    (h : search g cap steps w = .found found) : g.DerivesWithin cap [g.start] w := by
  obtain ⟨node, hnode, hgoal⟩ := Frontier.search_found h
  exact exists_leads_iff.mp ⟨node, hnode, (finish?_eq_some_iff.mp hgoal).1⟩

/-- A node is as good as its form: how the form was reached makes no difference. -/
theorem interchangeable (g : Grammar) (cap : Nat) (w : Word) (root : Node) :
    Frontier.Interchangeable Node.form (moves g cap) (finish? w) root where
  moves a b _ _ hform a' ha' := by
    have hstep := exists_mem_moves_iff.mp ⟨a', ha', rfl⟩
    rw [hform] at hstep
    exact exists_mem_moves_iff.mpr hstep
  goals a b _ _ hform ha := by
    simpa [finish?, hform] using ha

/-- The forms visited are among the words of bounded length over the vocabulary. -/
theorem form_mem_wordsUpTo (h : Frontier.Leads (moves g cap) ⟨[g.start], []⟩ node) :
    node.form ∈ wordsUpTo g.vocabulary.symbols.toList (max cap 1) :=
  (exists_leads_iff.mp ⟨node, h, rfl⟩).mem_wordsUpTo

/-- **The search is exact below its cap**, once its ceiling is at least the number of words that fit. -/
theorem exists_found_search_iff
    (hsteps : ∑ k ∈ Finset.range (max cap 1 + 1), g.vocabulary.symbols.card ^ k ≤ steps) :
    (∃ found, search g cap steps w = .found found) ↔ g.DerivesWithin cap [g.start] w := by
  have hkeys : (wordsUpTo g.vocabulary.symbols.toList (max cap 1)).length ≤ steps := by
    rw [length_wordsUpTo, Finset.length_toList]
    exact hsteps
  rw [search, Frontier.search_decides (interchangeable g cap w _)
    (fun _ h => form_mem_wordsUpTo h) hkeys, ← exists_leads_iff]
  simp only [finish?_ne_none_iff]

theorem answer_eq_of_cap_eq {b : Budget} (h : FormSearch.cap g b w.length = .ok cap) :
    answer g b w = .ok ((search g cap b.searchSteps w).answer Word.shown g.start
      (.searchGaveUp b.searchSteps)) := by
  rw [answer, h]
  rfl

/-- An answer that accepts tells what the search has found below its cap. -/
theorem exists_found_of_accepted {b : Budget} {a : Answer} (h : answer g b w = .ok a)
    (haccepted : a.outcome.accepted = true) :
    ∃ cap found, FormSearch.cap g b w.length = .ok cap ∧
      search g cap b.searchSteps w = .found found ∧
      a = ⟨⟨true, some (.linear (derivationLines Word.shown g.start found))⟩, []⟩ := by
  cases hcap : FormSearch.cap g b w.length with
  | error e =>
    rw [answer, hcap] at h
    cases h
  | ok cap =>
    rw [answer_eq_of_cap_eq hcap] at h
    cases h
    obtain ⟨found, hfound⟩ := Verdict.accepted_answer.mp haccepted
    exact ⟨cap, found, rfl, hfound, by rw [hfound]; rfl⟩

/-- The cap of the search, given the longest form that the budget admits. -/
theorem cap_eq_ite {b : Budget} {n : Nat} (hcap : b.lengthCap n = .ok cap) :
    FormSearch.cap g b n =
      .ok (if g.level = .contextSensitive then min cap (max n 1) else cap) := by
  rw [FormSearch.cap]
  cases g.level with
  | contextSensitive => simp only [hcap, Except.map, if_true]
  | _ => simp [hcap]

theorem cap_eq_of_contextSensitive {b : Budget} {n : Nat} (hlevel : g.level = .contextSensitive)
    (hcap : b.lengthCap n = .ok cap) (hlong : max n 1 ≤ cap) :
    FormSearch.cap g b n = .ok (max n 1) := by
  rw [cap_eq_ite hcap, if_pos hlevel, min_eq_right hlong]

/-- **The search is exact within its cap**, whatever the level of the grammar.  The cap is the longest form
that the budget admits, at level 1 no longer than the word or the start symbol; with a ceiling at the number
of words that fit it, the search answers, and it accepts exactly the words that are derived through forms
that fit. -/
theorem answer_accepted_iff_derivesWithin {b : Budget} {longest : Nat}
    (hlongest : b.lengthCap w.length = .ok longest)
    (hcap : cap = if g.level = .contextSensitive then min longest (max w.length 1) else longest)
    (hsteps : ∑ k ∈ Finset.range (max cap 1 + 1), g.vocabulary.symbols.card ^ k ≤ b.searchSteps) :
    ∃ a, answer g b w = .ok a ∧
      (a.outcome.accepted = true ↔ g.DerivesWithin cap [g.start] w) := by
  have hcap' : FormSearch.cap g b w.length = .ok cap := by rw [cap_eq_ite hlongest, ← hcap]
  refine ⟨_, answer_eq_of_cap_eq hcap', ?_⟩
  rw [Verdict.accepted_answer, exists_found_search_iff hsteps]

/-- A single `a` that comes with two symbols which vanish only together. -/
def detour : Grammar :=
  (Grammar.ofRules "SB" "a" [("S", ["aBB"]), ("BB", ["ε"])] 'S').toOption.get rfl

/-- Room for so many symbols per symbol of the target, and none beyond. -/
def tight (factor : Nat) : Budget :=
  { lengthFactor := factor, lengthSlack := 0, lengthFloor := 0 }

/-- The way to the word leads through a form of three symbols.  A budget that admits three symbols accepts
it, and one that admits two does not, although the word is derived all the same. -/
theorem answer_accepts_detour :
    detour.level = .unrestricted ∧ detour.Derives ['S'] ['a'] ∧
    ((tight 3).lengthCap 1 = .ok 3 ∧
      ∑ k ∈ Finset.range (max 3 1 + 1), detour.vocabulary.symbols.card ^ k ≤ (tight 3).searchSteps ∧
      ∃ a, answer detour (tight 3) ['a'] = .ok a ∧ a.outcome.accepted = true) ∧
    ((tight 2).lengthCap 1 = .ok 2 ∧
      ∑ k ∈ Finset.range (max 2 1 + 1), detour.vocabulary.symbols.card ^ k ≤ (tight 2).searchSteps ∧
      ∃ a, answer detour (tight 2) ['a'] = .ok a ∧ a.outcome.accepted = false) := by
  have hlevel : detour.level = .unrestricted := by decide
  have hstep : ∀ f f', (∃ s ∈ detour.successors f, s.form = f') → detour.Step f f' :=
    fun f f' => Grammar.step_iff_mem_successors.mpr
  have hwithin : detour.DerivesWithin 3 ['S'] ['a'] :=
    .tail (.single ⟨hstep _ ['a', 'B', 'B'] (by decide), by decide⟩)
      ⟨hstep _ _ (by decide), by decide⟩
  have hfirst : detour.successors ['S'] = [⟨['S'], ['a', 'B', 'B'], ['a', 'B', 'B']⟩] := by decide
  -- The only step out of the start symbol leads to three symbols.
  have honly : ∀ f, detour.DerivesWithin 2 ['S'] f → f = ['S'] := by
    intro f h
    induction h with
    | refl => rfl
    | tail _ hnext ih =>
      subst ih
      obtain ⟨s, hs, rfl⟩ := Grammar.step_iff_mem_successors.mp hnext.1
      rw [hfirst, List.mem_singleton] at hs
      subst hs
      exact absurd hnext.2 (by decide)
  have hthree : (tight 3).lengthCap 1 = .ok 3 := rfl
  have htwo : (tight 2).lengthCap 1 = .ok 2 := rfl
  obtain ⟨a, ha, haccepted⟩ := answer_accepted_iff_derivesWithin (g := detour) (w := ['a'])
    hthree (by rw [hlevel, if_neg (by decide)]) (by decide)
  obtain ⟨a', ha', haccepted'⟩ := answer_accepted_iff_derivesWithin (g := detour) (w := ['a'])
    htwo (by rw [hlevel, if_neg (by decide)]) (by decide)
  have hrejected : a'.outcome.accepted = false := by
    rw [← Bool.not_eq_true, haccepted']
    intro h
    exact absurd (honly _ h) (by decide)
  exact ⟨hlevel, hwithin.derives, ⟨hthree, by decide, a, ha, haccepted.mpr hwithin⟩,
    htwo, by decide, a', ha', hrejected⟩

/-- **For a context-sensitive grammar the search decides membership**: with a cap that leaves room for the
word and a ceiling at the number of forms no longer than the word, it answers, and it accepts exactly the
words that the start symbol derives. -/
theorem answer_accepted_iff_derives {b : Budget} (hlevel : g.level = .contextSensitive)
    (hcap : b.lengthCap w.length = .ok cap) (hlong : max w.length 1 ≤ cap)
    (hsteps : ∑ k ∈ Finset.range (max w.length 1 + 1), g.vocabulary.symbols.card ^ k ≤
      b.searchSteps) :
    ∃ a, answer g b w = .ok a ∧ (a.outcome.accepted = true ↔ g.Derives [g.start] w) := by
  refine ⟨_, answer_eq_of_cap_eq (cap_eq_of_contextSensitive hlevel hcap hlong), ?_⟩
  have hroom : max (max w.length 1) 1 = max w.length 1 := max_eq_left (Nat.le_max_right _ _)
  rw [Verdict.accepted_answer, exists_found_search_iff (by rw [hroom]; exact hsteps),
    Grammar.derivesWithin_iff_derives hlevel]

/-- The words `aⁿbⁿcⁿ`, with a start symbol that may be erased. -/
def equalRuns : Grammar :=
  (Grammar.ofRules "TSBC" "abc"
    [("T", ["S", "ε"]), ("S", ["aSBC", "aBC"]), ("CB", ["BC"]), ("aB", ["ab"]), ("bB", ["bb"]),
      ("bC", ["bc"]), ("cC", ["cc"])] 'T').toOption.get rfl

theorem answer_accepts_equalRuns :
    equalRuns.level = .contextSensitive ∧ ({} : Budget).lengthCap 3 = .ok 100 ∧
    ∑ k ∈ Finset.range (max 3 1 + 1), equalRuns.vocabulary.symbols.card ^ k ≤
      ({} : Budget).searchSteps ∧
    ∃ a, answer equalRuns {} ['a', 'b', 'c'] = .ok a ∧ a.outcome.accepted = true := by
  have hcap : ({} : Budget).lengthCap 3 = .ok 100 := rfl
  have hderives : equalRuns.Derives ['T'] ['a', 'b', 'c'] := by
    have hstep : ∀ f f', (∃ s ∈ equalRuns.successors f, s.form = f') → equalRuns.Step f f' :=
      fun f f' => Grammar.step_iff_mem_successors.mpr
    exact .tail (.tail (.tail (.tail .refl (hstep _ ['S'] (by decide)))
      (hstep _ ['a', 'B', 'C'] (by decide))) (hstep _ ['a', 'b', 'C'] (by decide)))
      (hstep _ _ (by decide))
  obtain ⟨a, ha, haccepted⟩ := answer_accepted_iff_derives (g := equalRuns) (w := ['a', 'b', 'c'])
    (by decide) hcap (by decide) (by decide)
  exact ⟨by decide, hcap, by decide, a, ha, haccepted.mpr hderives⟩

end FormSearch

end PhraseStructure
