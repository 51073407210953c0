import PhraseStructure.Proofs.Layers
import PhraseStructure.Proofs.FormSearch
import PhraseStructure.Proofs.LinearWalk
import PhraseStructure.Recognition

/-!
# Traces are shortest derivations

The walk of a regular grammar and the search over sentential forms both tell how they came to a word, line by
line.  What they tell can be followed from the start symbol to the word, and nothing shorter can: every node
remembers the steps that led to it, and nodes are visited in the order of their distance from the root.

Both arguments have the same two halves.  The path of every node to which a strategy leads is a derivation of the
node's form (`FormSearch.replays_of_leads`, `LinearWalk.replays_of_leads`).  Conversely, the strategy leads to a
node for every derivation that it admits, in as many moves as the derivation has steps
(`FormSearch.leads_of_replays`, `LinearWalk.exists_leads_of_replays`); so a shorter derivation would have given a
nearer goal.  The search admits the derivations whose forms fit its cap.  The walk of a regular grammar admits all of
them, although its forms are read off the input and an alternative of one symbol or none ends it in the middle of a
visit.

## Main results

* `FormSearch.shortest_of_search_found`, `LinearWalk.shortest_of_search_found`: what is found is a shortest
  derivation.
* `Grammar.traces_are_shortest`: the lines of a trace tell a shortest derivation.
-/

namespace PhraseStructure

variable {g : Grammar} {w : Word}

/-! ## The search over sentential forms -/

namespace FormSearch

variable {cap steps : Nat} {f : Word} {node : Node} {found : List Step}

/-- The path of a node is a derivation of its form, through forms that fit the cap. -/
theorem replays_of_leads (h : Frontier.Leads (moves g cap) ⟨[g.start], []⟩ node) :
    g.Replays [g.start] node.path.reverse node.form ∧ ∀ s ∈ node.path, s.form.length ≤ cap := by
  induction h with
  | refl => exact ⟨.nil, by simp⟩
  | tail _ hmove ih =>
    obtain ⟨hreplays, hfits⟩ := ih
    obtain ⟨s, hs, hlength, rfl⟩ := mem_moves.mp hmove
    refine ⟨?_, List.forall_mem_cons.mpr ⟨hlength, hfits⟩⟩
    rw [List.reverse_cons]
    exact hreplays.snoc hs

/-- **The search follows every derivation that fits its cap**, one move for each step. -/
theorem leads_of_replays (h : g.Replays f found w) (hfits : ∀ s ∈ found, s.form.length ≤ cap)
    (path : List Step) :
    Frontier.Leads (moves g cap) ⟨f, path⟩ ⟨w, found.reverse ++ path⟩ := by
  -- Steps are told in order, but a node remembers the most recent one first.
  induction h generalizing path with
  | nil => exact .refl
  | @cons p r u v w found hp hr _ ih =>
    obtain ⟨hlength, hfits⟩ := List.forall_mem_cons.mp hfits
    have hs : ⟨p.left, r, u ++ r ++ v⟩ ∈ g.successors (u ++ p.left ++ v) :=
      Grammar.mem_successors.mpr ⟨p, hp, r, hr, u, v, rfl, rfl⟩
    have hpath : (⟨p.left, r, u ++ r ++ v⟩ :: found).reverse ++ path =
        found.reverse ++ ⟨p.left, r, u ++ r ++ v⟩ :: path := by
      rw [List.reverse_cons, List.append_assoc, List.singleton_append]
    rw [hpath]
    exact (ih hfits _).head (mem_moves.mpr ⟨_, hs, hlength, rfl⟩)

/-- **What the search finds is a shortest derivation** among those that fit its cap. -/
theorem shortest_of_search_found (h : search g cap steps w = .found found) :
    g.Replays [g.start] found w ∧ (∀ s ∈ found, s.form.length ≤ cap) ∧
      ∀ other, g.Replays [g.start] other w → (∀ s ∈ other, s.form.length ≤ cap) →
        found.length ≤ other.length := by
  obtain ⟨node, hnode, hgoal, hnearest⟩ := Frontier.search_found_nearest
    (fun _ _ => path_length_of_mem_moves) (interchangeable g cap w _) h
  obtain ⟨rfl, rfl⟩ := finish?_eq_some_iff.mp hgoal
  obtain ⟨hreplays, hfits⟩ := replays_of_leads hnode
  refine ⟨hreplays, fun s hs => hfits s (List.mem_reverse.mp hs), ?_⟩
  intro other hother hfits'
  have hle := hnearest _ (leads_of_replays hother hfits' []) (finish?_ne_none_iff.mpr rfl)
  simpa using hle

end FormSearch

/-! ## The walk of a regular grammar -/

namespace LinearWalk

variable {d : Direction} {c : Symbol} {r read : Word} {steps : Nat} {node : Node} {found : List Step}

/-- What an alternative makes of the state behind the symbols read is one step away. -/
theorem mem_successors_orient (hr : r ∈ g.alternatives c) (read : Word) :
    ⟨[c], r, d.orient (read ++ d.orient r)⟩ ∈ g.successors (d.orient (read ++ [c])) := by
  obtain ⟨p, hp, hleft, hr⟩ := Grammar.mem_alternatives.mp hr
  obtain ⟨u, v, hcontext⟩ := exists_orient_append d read []
  have hbefore : d.orient (read ++ [c]) = u ++ [c] ++ v := by simpa using hcontext [c]
  have hafter : d.orient (read ++ d.orient r) = u ++ r ++ v := by simpa using hcontext (d.orient r)
  exact Grammar.mem_successors.mpr ⟨p, hp, r, hr, u, v, by rw [hleft, hbefore], by rw [hleft, hafter]⟩

/-- What has been read and what is left are the input, and the path of a node is a derivation of its
form. -/
theorem replays_of_leads (h : Frontier.Leads (moves g d) (origin g d w) node) :
    d.orient w = node.read.reverse ++ node.rest ∧
      g.Replays [g.start] node.path.reverse (form d node.read [node.state]) := by
  induction h with
  | refl =>
    refine ⟨rfl, ?_⟩
    rw [show form d (origin g d w).read [(origin g d w).state] = [g.start] from d.orient_singleton _]
    exact .nil
  | @tail node _ _ hmove ih =>
    obtain ⟨hinput, hreplays⟩ := ih
    obtain ⟨r, hr, hadvance⟩ := mem_moves.mp hmove
    obtain ⟨a, c, rest, horient, hrest, rfl⟩ := advance?_eq_some_iff.mp hadvance
    refine ⟨by simp [hinput, hrest], ?_⟩
    have hs := mem_successors_orient (d := d) hr node.read.reverse
    have hform : d.orient (node.read.reverse ++ d.orient r) = form d (a :: node.read) [c] := by
      simp [form, horient]
    rw [hform] at hs
    rw [List.reverse_cons]
    exact hreplays.snoc hs

/-- An alternative that ends the walk is all that is left to read. -/
theorem close?_eq_some {path : List Step} (h : close? d node r = some path) :
    d.orient r = node.rest ∧
      path = ⟨[node.state], r, d.orient (node.read.reverse ++ d.orient r)⟩ :: node.path := by
  rw [close?] at h
  split at h
  · next hr hrest =>
    cases h
    simp [hr, hrest, form]
  · next a b hr hrest =>
    split at h
    · next hab =>
      cases h
      simp [hr, hrest, hab, form]
    · cases h
  · cases h

/-- **Where the walk ends, its path and one more step are a derivation of the input.** -/
theorem replays_of_finish? (h : Frontier.Leads (moves g d) (origin g d w) node)
    (hfinish : finish? g d node = some found) :
    g.Replays [g.start] found w ∧ found.length = node.path.length + 1 := by
  obtain ⟨path, hpath, rfl⟩ := Option.map_eq_some_iff.mp hfinish
  obtain ⟨r, hr, hclose⟩ := List.exists_of_findSome?_eq_some hpath
  obtain ⟨hrest, rfl⟩ := close?_eq_some hclose
  obtain ⟨hinput, hreplays⟩ := replays_of_leads h
  have hs := mem_successors_orient (d := d) hr node.read.reverse
  rw [hrest, ← hinput, d.orient_orient] at hs
  rw [hrest, ← hinput, d.orient_orient, List.reverse_cons]
  exact ⟨hreplays.snoc hs, by simp⟩

/-- **What the walk of a regular grammar finds is a shortest derivation.** -/
theorem shortest_of_search_found (hlevel : g.level = .regular)
    (hlinear : ∀ c, ∀ r ∈ g.alternatives c, g.vocabulary.isLinear d r = true)
    (h : search g d steps w = .found found) :
    g.Replays [g.start] found w ∧
      ∀ other, g.Replays [g.start] other w → found.length ≤ other.length := by
  obtain ⟨node, hnode, hgoal, hnearest⟩ := Frontier.search_found_nearest
    (fun _ _ => path_length_of_mem_moves) (interchangeable g d _) h
  obtain ⟨hreplays, hlength⟩ := replays_of_finish? hnode hgoal
  refine ⟨hreplays, ?_⟩
  intro other hother
  -- What is accepted are terminals, so that the walk can follow the other derivation.
  have hruns := exists_leads_iff_runs.mp ⟨node, hnode, by rw [hgoal]; exact Option.some_ne_none _⟩
  have hw : ∀ a ∈ w, a ∈ g.vocabulary.terminals :=
    fun a ha => hruns.terminals hlinear a (mem_orient.mpr ha)
  obtain ⟨rest, hrest, hfollow⟩ := exists_leads_of_replays hlevel hlinear hw hother [] g.start
    (d.orient_singleton _) (by simp) g.start_mem
  obtain ⟨last, hlast, hfinish, hlength'⟩ := hfollow (origin g d w) rfl hrest
  have hle := hnearest last hlast hfinish
  have hpath : (origin g d w).path.length = 0 := rfl
  omega

end LinearWalk

/-! ## Traces -/

namespace Grammar

/-- **The lines of a trace tell a shortest derivation.**  The first line is the start symbol, and every other line
names a left side, an alternative, and the form that comes out when one occurrence of the left side gives way to
the alternative; the last form is the word.  A search shows the empty form as `ε`, and no derivation through forms
that fit its cap has fewer steps.  A walk of a regular grammar shows the empty form as nothing, and no derivation
at all has fewer steps. -/
theorem traces_are_shortest (g : Grammar) (b : Budget) (w : Word) :
    (∀ a, FormSearch.answer g b w = .ok a → a.outcome.accepted = true →
      ∃ cap steps, FormSearch.cap g b w.length = .ok cap ∧
        a.outcome.trace = some (.linear (g.start.toString :: steps.map fun s =>
          s.left.plain ++ " → " ++ s.right.shown ++ "  ⇒  " ++ s.form.shown)) ∧
        g.Replays [g.start] steps w ∧ (∀ s ∈ steps, s.form.length ≤ cap) ∧
        ∀ other, g.Replays [g.start] other w → (∀ s ∈ other, s.form.length ≤ cap) →
          steps.length ≤ other.length) ∧
    (g.level = .regular → (LinearWalk.answer g b w).outcome.accepted = true →
      ∃ steps, (LinearWalk.answer g b w).outcome.trace = some (.linear (g.start.toString ::
          steps.map fun s => s.left.plain ++ " → " ++ s.right.shown ++ "  ⇒  " ++ s.form.plain)) ∧
        g.Replays [g.start] steps w ∧
        ∀ other, g.Replays [g.start] other w → steps.length ≤ other.length) := by
  constructor
  · intro a h haccepted
    obtain ⟨cap, steps, hcap, hfound, rfl⟩ := FormSearch.exists_found_of_accepted h haccepted
    exact ⟨cap, steps, hcap, rfl, FormSearch.shortest_of_search_found hfound⟩
  · intro hlevel haccepted
    obtain ⟨d, hdirection, hlinear⟩ := isLinear_alternatives hlevel
    rw [LinearWalk.answer, hdirection] at haccepted ⊢
    obtain ⟨steps, hfound⟩ := Verdict.accepted_answer.mp haccepted
    rw [hfound]
    exact ⟨steps, rfl, LinearWalk.shortest_of_search_found hlevel hlinear hfound⟩

/-- Room for three symbols and a handful of visits. -/
def fewVisits : Budget :=
  { FormSearch.tight 3 with walkSteps := 5, searchSteps := 5 }

theorem traces_are_shortest_fewVisits :
    (FormSearch.answer FormSearch.detour fewVisits ['a'] =
        .ok ⟨⟨true, some (.linear ["S", "S → aBB  ⇒  aBB", "BB → ε  ⇒  a"])⟩, []⟩ ∧
      ∀ other, FormSearch.detour.Replays ['S'] other ['a'] → (∀ s ∈ other, s.form.length ≤ 3) →
        2 ≤ other.length) ∧
    (LinearWalk.backwards.level = .regular ∧
      (LinearWalk.answer LinearWalk.backwards fewVisits ['a', 'b']).outcome =
        ⟨true, some (.linear ["S", "S → Ab  ⇒  Ab", "A → a  ⇒  ab"])⟩ ∧
      ∀ other, LinearWalk.backwards.Replays ['S'] other ['a', 'b'] → 2 ≤ other.length) := by
  have hsearch : FormSearch.answer FormSearch.detour fewVisits ['a'] =
      .ok ⟨⟨true, some (.linear ["S", "S → aBB  ⇒  aBB", "BB → ε  ⇒  a"])⟩, []⟩ := by cbv
  have hlevel : LinearWalk.backwards.level = .regular := by decide
  have hwalk : (LinearWalk.answer LinearWalk.backwards fewVisits ['a', 'b']).outcome =
      ⟨true, some (.linear ["S", "S → Ab  ⇒  Ab", "A → a  ⇒  ab"])⟩ := by cbv
  -- A trace has one line more than the derivation that it tells has steps.
  have hlines : ∀ {lines lines' : List String}, some (Trace.linear lines) = some (.linear lines') →
      lines.length = lines'.length := by
    intro lines lines' h
    cases h
    rfl
  obtain ⟨hsearches, -⟩ := traces_are_shortest FormSearch.detour fewVisits ['a']
  obtain ⟨cap, steps, hcap, htrace, -, -, hshortest⟩ := hsearches _ hsearch rfl
  obtain rfl : 3 = cap := Except.ok.inj hcap
  obtain ⟨-, hwalks⟩ := traces_are_shortest LinearWalk.backwards fewVisits ['a', 'b']
  obtain ⟨walked, htrace', -, hshortest'⟩ := hwalks hlevel (by rw [hwalk])
  rw [hwalk] at htrace'
  have hsteps : steps.length = 2 := by simpa using hlines htrace
  have hwalked : walked.length = 2 := by simpa using hlines htrace'
  refine ⟨⟨hsearch, ?_⟩, hlevel, hwalk, ?_⟩
  · rw [← hsteps]
    exact hshortest
  · rw [← hwalked]
    exact hshortest'

end Grammar

end PhraseStructure
