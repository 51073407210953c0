import PhraseStructure.Proofs.Exploration
import PhraseStructure.Proofs.Replay
import PhraseStructure.Recognition.LinearWalk
import Mathlib.Data.List.ProdSigma

/-!
# The walk of a regular grammar decides membership

Between the walk and the derivations of a grammar stand the *runs* of an automaton: a state accepts some
symbols if it has an alternative that is all of them, or an alternative that reads the first of them and
hands the others to another state.  The walk finds an end exactly if the start symbol accepts the input
(`exists_leads_iff_runs`), whatever the grammar.  A run is always a derivation (`Runs.derives`); if the
alternatives are linear, the walk follows every derivation of a word of terminals step by step
(`exists_leads_of_replays`), and so every such derivation is a run (`exists_runs_of_derives`).

Both directions of reading are handled at once: a word is turned by `Direction.orient`, and turning keeps
what stands in a context (`exists_orient_append`).

## Main definitions

* `Runs`: a state accepts some symbols.

## Main results

* `exists_leads_iff_runs`: the walk finds an end exactly where there is a run.
* `Runs.derives`: what a run reads is derived.
* `exists_leads_of_replays`: the walk follows every derivation of a linear grammar.
* `exists_runs_of_derives`: what a linear grammar derives is read by a run.
* `walk_accepts_iff_generates`: for a regular grammar the walk accepts exactly the words of the language.
-/

namespace PhraseStructure

namespace LinearWalk

variable {g : Grammar} {d : Direction} {c : Symbol} {r rest w : Word} {node : Node}

/-- A state accepts some symbols: an alternative of at most one symbol is all of them, or a pair reads the
first one and its state accepts the others. -/
inductive Runs (g : Grammar) (d : Direction) : Symbol → Word → Prop where
  /-- The alternative is all there is to read. -/
  | close {c : Symbol} {r : Word} :
      r ∈ g.alternatives c → r.length ≤ 1 → Runs g d c (d.orient r)
  /-- The alternative reads one symbol and changes the state. -/
  | advance {c a c' : Symbol} {r rest : Word} :
      r ∈ g.alternatives c → d.orient r = [a, c'] → Runs g d c' rest → Runs g d c (a :: rest)

/-! ## The walk finds runs -/

theorem close?_ne_none_iff : close? d node r ≠ none ↔ d.orient r = node.rest ∧ r.length ≤ 1 := by
  rw [close?, ← d.length_orient r]
  split
  · next hr hrest => simp [hr, hrest]
  · next a b hr hrest =>
    by_cases hab : a = b
    · simp [hr, hrest, hab]
    · simp [hr, hrest, hab]
  · next hnil hone =>
    simp only [ne_eq, not_true_eq_false, false_iff, not_and, not_le]
    intro heq
    match hr : d.orient r with
    | [] => exact absurd (heq ▸ hr) (hnil hr)
    | [a] => exact absurd (heq ▸ hr) (hone a a hr)
    | _ :: _ :: _ => simp

theorem finish?_ne_none_iff :
    finish? g d node ≠ none ↔ ∃ r ∈ g.alternatives node.state, d.orient r = node.rest ∧ r.length ≤ 1 := by
  simp only [finish?, ne_eq, Option.map_eq_none_iff, List.findSome?_eq_none_iff, not_forall,
    exists_prop]
  exact exists_congr fun r => and_congr_right fun _ => close?_ne_none_iff

theorem advance?_eq_some_iff {node' : Node} :
    advance? d node r = some node' ↔ ∃ a c' rest, d.orient r = [a, c'] ∧ node.rest = a :: rest ∧
      ⟨c', a :: node.read, rest, ⟨[node.state], r, form d (a :: node.read) [c']⟩ :: node.path⟩ =
        node' := by
  rw [advance?]
  split
  · next a c' b rest hr hrest =>
    by_cases hab : a = b
    · subst hab
      simp [hr, hrest]
    · simp [hr, hrest, hab, Ne.symm hab]
  · next hno =>
    simp only [reduceCtorEq, false_iff, not_exists, not_and]
    intro a c' rest hr hrest
    exact absurd hrest (hno a c' a rest hr)

theorem mem_moves {node' : Node} :
    node' ∈ moves g d node ↔ ∃ r ∈ g.alternatives node.state, advance? d node r = some node' := by
  rw [moves, List.mem_filterMap]

/-- What a move does: some pair reads the first symbol that is left. -/
theorem exists_of_mem_moves {node' : Node} (h : node' ∈ moves g d node) :
    ∃ r ∈ g.alternatives node.state, ∃ a, d.orient r = [a, node'.state] ∧
      node.rest = a :: node'.rest := by
  obtain ⟨r, hr, hadvance⟩ := mem_moves.mp h
  obtain ⟨a, c', rest, horient, hrest, rfl⟩ := advance?_eq_some_iff.mp hadvance
  exact ⟨r, hr, a, horient, hrest⟩

theorem exists_mem_moves {a c' : Symbol} (hr : r ∈ g.alternatives node.state)
    (horient : d.orient r = [a, c']) (hrest : node.rest = a :: rest) :
    ∃ node' ∈ moves g d node, node'.state = c' ∧ node'.rest = rest :=
  ⟨_, mem_moves.mpr ⟨r, hr, advance?_eq_some_iff.mpr ⟨a, c', rest, horient, hrest, rfl⟩⟩, rfl, rfl⟩

theorem path_length_of_mem_moves {node' : Node} (h : node' ∈ moves g d node) :
    node'.path.length = node.path.length + 1 := by
  obtain ⟨r, -, hadvance⟩ := mem_moves.mp h
  obtain ⟨a, c, rest, -, -, rfl⟩ := advance?_eq_some_iff.mp hadvance
  rfl

/-- **The walk finds an end exactly where there is a run.** -/
theorem exists_leads_iff_runs :
    (∃ node', Frontier.Leads (moves g d) node node' ∧ finish? g d node' ≠ none) ↔
      Runs g d node.state node.rest := by
  constructor
  · rintro ⟨node', hleads, hfinish⟩
    induction hleads using Relation.ReflTransGen.head_induction_on with
    | refl =>
      obtain ⟨r, hr, horient, hlen⟩ := finish?_ne_none_iff.mp hfinish
      exact horient ▸ .close hr hlen
    | head hmove _ ih =>
      obtain ⟨r, hr, a, horient, hrest⟩ := exists_of_mem_moves hmove
      exact hrest ▸ .advance hr horient ih
  · intro h
    generalize hstate : node.state = c, hrest : node.rest = rest at h
    induction h generalizing node with
    | close hr hlen =>
      subst hstate
      exact ⟨node, .refl, finish?_ne_none_iff.mpr ⟨_, hr, hrest.symm, hlen⟩⟩
    | advance hr horient _ ih =>
      subst hstate
      obtain ⟨node', hmove, hstate', hrest'⟩ := exists_mem_moves hr horient hrest
      obtain ⟨last, hleads, hfinish⟩ := ih hstate' hrest'
      exact ⟨last, hleads.head hmove, hfinish⟩

/-! ## A node is known by its key -/

theorem rest_suffix {root : Node} (h : Frontier.Leads (moves g d) root node) :
    node.rest <:+ root.rest := by
  induction h with
  | refl => exact List.suffix_refl _
  | tail _ hmove ih =>
    obtain ⟨-, -, a, -, hrest⟩ := exists_of_mem_moves hmove
    exact ((hrest ▸ List.suffix_cons a _ : _ <:+ _)).trans ih

/-- Of two nodes with the same key, both have the same symbols left, since these are the end of one and the
same input. -/
theorem rest_eq_of_key_eq {root a b : Node} (ha : Frontier.Leads (moves g d) root a)
    (hb : Frontier.Leads (moves g d) root b) (hkey : key a = key b) :
    a.state = b.state ∧ a.rest = b.rest := by
  obtain ⟨hstate, hlen⟩ := Prod.mk.inj hkey
  have hsuffix := List.suffix_of_suffix_length_le (rest_suffix ha) (rest_suffix hb) hlen.le
  exact ⟨hstate, hsuffix.eq_of_length hlen⟩

theorem interchangeable (g : Grammar) (d : Direction) (root : Node) :
    Frontier.Interchangeable key (moves g d) (finish? g d) root where
  moves a b ha hb hkey a' ha' := by
    obtain ⟨hstate, hrest⟩ := rest_eq_of_key_eq ha hb hkey
    obtain ⟨r, hr, s, horient, hrest'⟩ := exists_of_mem_moves ha'
    rw [hstate] at hr
    rw [hrest] at hrest'
    obtain ⟨b', hmove, hstate'', hrest''⟩ := exists_mem_moves hr horient hrest'
    exact ⟨b', hmove, by rw [key, key, hstate'', hrest'']⟩
  goals a b ha hb hkey hgoal := by
    obtain ⟨hstate, hrest⟩ := rest_eq_of_key_eq ha hb hkey
    by_contra hne
    obtain ⟨r, hr, horient, hlen⟩ := finish?_ne_none_iff.mp hne
    rw [← hstate] at hr
    rw [← hrest] at horient
    exact finish?_ne_none_iff.mpr ⟨r, hr, horient, hlen⟩ hgoal

/-! ## Runs are derivations -/

theorem mem_orient {a : Symbol} : a ∈ d.orient w ↔ a ∈ w := by
  cases d with
  | right => exact Iff.rfl
  | left => exact List.mem_reverse

/-- Turning a word keeps what stands in a context. -/
theorem exists_orient_append (d : Direction) (u v : Word) :
    ∃ u' v', ∀ x, d.orient (u ++ x ++ v) = u' ++ d.orient x ++ v' := by
  cases d with
  | right => exact ⟨u, v, fun _ => rfl⟩
  | left => exact ⟨v.reverse, u.reverse, fun x => by simp [Direction.orient]⟩

theorem derives_orient_cons (h : g.Derives [c] (d.orient rest)) (a : Symbol) :
    g.Derives (d.orient [a, c]) (d.orient (a :: rest)) := by
  cases d with
  | right => simpa [Direction.orient] using h.context [a] []
  | left => simpa [Direction.orient] using h.context [] [a]

/-- **What a run reads is derived**, whatever the grammar. -/
theorem Runs.derives (h : Runs g d c rest) : g.Derives [c] (d.orient rest) := by
  induction h with
  | close hr _ =>
    rw [d.orient_orient]
    exact .tail .refl (by simpa using Grammar.step_of_mem_alternatives hr [] [])
  | @advance c a c' r rest hr horient _ ih =>
    have hpair : r = d.orient [a, c'] := by rw [← horient, d.orient_orient]
    rw [hpair] at hr
    exact .head (by simpa using Grammar.step_of_mem_alternatives hr [] [])
      (derives_orient_cons ih a)

/-! ## Derivations of linear grammars are runs -/

theorem isLinear_cases {v : Vocabulary} (h : v.isLinear d r = true) :
    (r.length ≤ 1 ∧ ∀ c ∈ r, c ∈ v.terminals) ∨
      ∃ a ∈ v.terminals, ∃ c ∈ v.nonterminals, d.orient r = [a, c] := by
  match r with
  | [] => exact Or.inl ⟨Nat.zero_le _, by simp⟩
  | [a] =>
    have ha : v.isTerminal a = true := h
    exact Or.inl ⟨le_rfl, by simpa using ha⟩
  | [a, b] =>
    right
    cases d with
    | right =>
      obtain ⟨ha, hb⟩ := Bool.and_eq_true_iff.mp h
      exact ⟨a, Vocabulary.isTerminal_iff.mp ha, b, Vocabulary.isNonterminal_iff.mp hb, rfl⟩
    | left =>
      obtain ⟨ha, hb⟩ := Bool.and_eq_true_iff.mp h
      exact ⟨b, Vocabulary.isTerminal_iff.mp hb, a, Vocabulary.isNonterminal_iff.mp ha, rfl⟩
  | a :: b :: c :: r => cases d <;> cases h

theorem length_eq_two {a b : Symbol} (h : d.orient r = [a, b]) : r.length = 2 := by
  rw [← d.length_orient, h]
  rfl

/-- The parts of a pair are a terminal and a nonterminal. -/
theorem mem_of_isLinear_pair {v : Vocabulary} {a b : Symbol} (h : v.isLinear d r = true)
    (hpair : d.orient r = [a, b]) : a ∈ v.terminals ∧ b ∈ v.nonterminals := by
  rcases isLinear_cases h with ⟨hlen, -⟩ | ⟨a', ha, b', hb, hpair'⟩
  · have := length_eq_two hpair
    omega
  · rw [hpair, List.cons.injEq, List.cons.injEq] at hpair'
    obtain ⟨rfl, rfl, -⟩ := hpair'
    exact ⟨ha, hb⟩

/-- The only nonterminal of a form is found in one place only. -/
theorem eq_of_append_singleton_eq {l u v : Word} {c c' : Symbol} (h : l ++ [c] = u ++ [c'] ++ v)
    (hc' : c' ∉ l) : u = l ∧ c' = c ∧ v = [] := by
  rcases List.eq_nil_or_concat v with rfl | ⟨v, x, rfl⟩
  · rw [List.append_nil] at h
    obtain ⟨rfl, hc⟩ := List.append_inj' h rfl
    exact ⟨rfl, (List.singleton_inj.mp hc).symm, rfl⟩
  · rw [List.concat_eq_append, ← List.append_assoc] at h
    obtain ⟨rfl, -⟩ := List.append_inj' h rfl
    exact absurd (by simp) hc'

/-- What takes the place of the only nonterminal of a form stands behind the terminals read. -/
theorem orient_replace {read u v : Word} {c c' : Symbol}
    (h : d.orient (u ++ [c'] ++ v) = read ++ [c]) (hc' : c' ∉ read) :
    c' = c ∧ ∀ x, d.orient (u ++ x ++ v) = read ++ d.orient x := by
  obtain ⟨u', v', hcontext⟩ := exists_orient_append d u v
  rw [hcontext, d.orient_singleton] at h
  obtain ⟨rfl, rfl, rfl⟩ := eq_of_append_singleton_eq h.symm hc'
  exact ⟨rfl, fun x => by rw [hcontext, List.append_nil]⟩

/-- **The walk follows every derivation of a linear grammar**, with one step of the derivation for each
move and one more to end.  The form that the derivation starts from holds some terminals that have been read
and one nonterminal; what the derivation adds to the terminals is what a walk in that state has to read. -/
theorem exists_leads_of_replays (hlevel : g.level = .regular)
    (hlinear : ∀ c, ∀ r ∈ g.alternatives c, g.vocabulary.isLinear d r = true)
    (hw : ∀ a ∈ w, a ∈ g.vocabulary.terminals) {f : Word} {steps : List Step}
    (h : g.Replays f steps w) :
    ∀ read c, d.orient f = read ++ [c] → (∀ a ∈ read, a ∈ g.vocabulary.terminals) →
      c ∈ g.vocabulary.nonterminals → ∃ rest, d.orient w = read ++ rest ∧
        ∀ node : Node, node.state = c → node.rest = rest → ∃ last,
          Frontier.Leads (moves g d) node last ∧ finish? g d last ≠ none ∧
            last.path.length + 1 = node.path.length + steps.length := by
  induction h with
  | nil =>
    intro read c hform _ hc
    have hmem := mem_orient.mp (hform ▸ List.mem_append_right read (List.mem_singleton_self c))
    exact absurd (hw c hmem) (g.vocabulary.disjoint c hc)
  | @cons p r u v w steps hp hr hrest ih =>
    intro read c hform hread hc
    obtain ⟨c', hc', hleft⟩ := Grammar.exists_left_eq (Or.inr hlevel) hp
    have halt : r ∈ g.alternatives c' := Grammar.mem_alternatives.mpr ⟨p, hp, hleft, hr⟩
    -- The nonterminal that is replaced is the one behind the terminals read so far.
    rw [hleft] at hform
    obtain ⟨rfl, hreplace⟩ := orient_replace hform
      fun hmem => g.vocabulary.disjoint c' hc' (hread c' hmem)
    have hform' := hreplace r
    rcases isLinear_cases (hlinear c' r halt) with ⟨hlen, hterminals⟩ | ⟨a, ha, b, hb, horient⟩
    · -- Nothing is left to replace, so the form is the word and there are no more steps.
      have hfinal : ∀ a ∈ u ++ r ++ v, a ∈ g.vocabulary.terminals := by
        intro a ha
        rw [← mem_orient, hform', List.mem_append] at ha
        rcases ha with ha | ha
        · exact hread a ha
        · exact hterminals a (mem_orient.mp ha)
      generalize hf : u ++ r ++ v = f' at hrest hfinal hform'
      cases hrest with
      | nil =>
        refine ⟨d.orient r, hform', fun node hstate hrest => ⟨node, .refl, ?_, rfl⟩⟩
        exact finish?_ne_none_iff.mpr ⟨r, hstate ▸ halt, hrest.symm, hlen⟩
      | cons hq _ _ =>
        obtain ⟨c, hc, hleft'⟩ := Grammar.exists_left_eq (Or.inr hlevel) hq
        exact absurd (hfinal c (by simp [hleft'])) (g.vocabulary.disjoint c hc)
    · -- The pair reads one more terminal.
      have hread' : ∀ x ∈ read ++ [a], x ∈ g.vocabulary.terminals :=
        List.forall_mem_append.mpr ⟨hread, List.forall_mem_singleton.mpr ha⟩
      obtain ⟨rest, hrest', hfollow⟩ := ih hw (read ++ [a]) b (by rw [hform', horient]; simp) hread' hb
      refine ⟨a :: rest, by rw [hrest']; simp, fun node hstate hrest => ?_⟩
      obtain ⟨node', hmove, hstate', hrest''⟩ := exists_mem_moves (hstate ▸ halt) horient hrest
      obtain ⟨last, hleads, hfinish, hlength⟩ := hfollow node' hstate' hrest''
      refine ⟨last, hleads.head hmove, hfinish, ?_⟩
      have hpath := path_length_of_mem_moves hmove
      rw [List.length_cons]
      omega

/-- **What a linear grammar derives is read by a run.**  The form that a derivation starts from holds some
terminals that have been read and one nonterminal, which accepts whatever the derivation adds to them. -/
theorem exists_runs_of_derives (hlevel : g.level = .regular)
    (hlinear : ∀ c, ∀ r ∈ g.alternatives c, g.vocabulary.isLinear d r = true)
    (hw : ∀ a ∈ w, a ∈ g.vocabulary.terminals) {f : Word} (h : g.Derives f w) :
    ∀ read c, d.orient f = read ++ [c] → (∀ a ∈ read, a ∈ g.vocabulary.terminals) →
      c ∈ g.vocabulary.nonterminals → ∃ rest, d.orient w = read ++ rest ∧ Runs g d c rest := by
  intro read c hform hread hc
  obtain ⟨steps, hreplays⟩ := Grammar.exists_replays_iff.mpr h
  obtain ⟨rest, hrest, hfollow⟩ :=
    exists_leads_of_replays hlevel hlinear hw hreplays read c hform hread hc
  obtain ⟨last, hleads, hfinish, -⟩ := hfollow ⟨c, [], rest, []⟩ rfl rfl
  exact ⟨rest, hrest, exists_leads_iff_runs.mp ⟨last, hleads, hfinish⟩⟩

/-- A regular grammar reads terminals only. -/
theorem Runs.terminals (hlinear : ∀ c, ∀ r ∈ g.alternatives c, g.vocabulary.isLinear d r = true)
    (h : Runs g d c rest) : ∀ a ∈ rest, a ∈ g.vocabulary.terminals := by
  induction h with
  | @close c r hr hlen =>
    rcases isLinear_cases (hlinear c r hr) with ⟨-, hterminals⟩ | ⟨a, -, b, -, hpair⟩
    · exact fun a ha => hterminals a (mem_orient.mp ha)
    · have := length_eq_two hpair
      omega
  | @advance c a c' r rest hr hpair _ ih =>
    intro x hx
    rcases List.mem_cons.mp hx with rfl | hx
    · exact (mem_of_isLinear_pair (hlinear c r hr) hpair).1
    · exact ih x hx

/-- The runs of a regular grammar are its derivations of words of terminals. -/
theorem runs_start_iff_generates (hlevel : g.level = .regular)
    (hlinear : ∀ c, ∀ r ∈ g.alternatives c, g.vocabulary.isLinear d r = true) :
    Runs g d g.start (d.orient w) ↔ g.Generates w := by
  constructor
  · intro h
    refine ⟨fun a ha => h.terminals hlinear a (mem_orient.mpr ha), ?_⟩
    simpa using h.derives
  · rintro ⟨hw, h⟩
    obtain ⟨rest, hrest, hruns⟩ := exists_runs_of_derives hlevel hlinear hw h [] g.start
      (by cases d <;> rfl) (by simp) g.start_mem
    rwa [hrest, List.nil_append]

/-! ## How many places there are -/

/-- The places of a walk: where it begins, and any nonterminal with fewer symbols left. -/
def places (g : Grammar) (n : Nat) : List (Symbol × Nat) :=
  (g.start, n) :: g.vocabulary.nonterminals.toList ×ˢ List.range n

theorem length_places (g : Grammar) (n : Nat) :
    (places g n).length = 1 + n * g.vocabulary.nonterminals.toList.length := by
  rw [places, List.length_cons, List.length_product, List.length_range, Nat.mul_comm, Nat.add_comm]

theorem key_mem_places (hlinear : ∀ c, ∀ r ∈ g.alternatives c, g.vocabulary.isLinear d r = true)
    (h : Frontier.Leads (moves g d) (origin g d w) node) : key node ∈ places g w.length := by
  cases h with
  | refl =>
    rw [key, origin, d.length_orient]
    exact List.mem_cons_self
  | @tail before _ hbefore hmove =>
    obtain ⟨r, hr, a, horient, hrest⟩ := exists_of_mem_moves hmove
    have hlength := (rest_suffix hbefore).length_le
    rw [hrest, origin, d.length_orient, List.length_cons] at hlength
    have hstate := (mem_of_isLinear_pair (hlinear _ r hr) horient).2
    refine List.mem_cons_of_mem _ (List.mem_product.mpr ⟨hstate, List.mem_range.mpr ?_⟩)
    exact Nat.lt_of_succ_le hlength

/-- **The walk finds the words of the language**, once its ceiling is at least the number of places. -/
theorem exists_found_search_iff {steps : Nat} (hlevel : g.level = .regular)
    (hlinear : ∀ c, ∀ r ∈ g.alternatives c, g.vocabulary.isLinear d r = true)
    (hsteps : 1 + w.length * g.vocabulary.nonterminals.toList.length ≤ steps) :
    (∃ found, search g d steps w = .found found) ↔ g.Generates w := by
  rw [search, Frontier.search_decides (interchangeable g d _) (fun _ h => key_mem_places hlinear h)
    (by rw [length_places]; exact hsteps), exists_leads_iff_runs]
  exact runs_start_iff_generates hlevel hlinear

/-- **For a regular grammar the walk decides membership**: with a ceiling at the number of places, it accepts
exactly the words of the language. -/
theorem walk_accepts_iff_generates {b : Budget} (hlevel : g.level = .regular)
    (hsteps : 1 + w.length * g.vocabulary.nonterminals.toList.length ≤ b.walkSteps) :
    (answer g b w).outcome.accepted = true ↔ g.Generates w := by
  obtain ⟨d, hdirection, hlinear⟩ := Grammar.isLinear_alternatives hlevel
  rw [answer, Verdict.accepted_answer, hdirection, Option.getD_some, search,
    Frontier.search_decides (interchangeable g d _) (fun _ h => key_mem_places hlinear h)
      (by rw [length_places]; exact hsteps),
    exists_leads_iff_runs]
  exact runs_start_iff_generates hlevel hlinear

/-- Some `a` and then a `b`, read from the end. -/
def backwards : Grammar :=
  (Grammar.ofRules "SA" "ab" [("S", ["Ab"]), ("A", ["a", "Aa"])] 'S').toOption.get rfl

theorem walk_accepts_backwards :
    backwards.level = .regular ∧ backwards.direction = some .left ∧
    1 + 3 * backwards.vocabulary.nonterminals.toList.length ≤ ({} : Budget).walkSteps ∧
    (answer backwards {} ['a', 'a', 'b']).outcome.accepted = true := by
  have hlevel : backwards.level = .regular := by decide
  have hsteps : 1 + 3 * backwards.vocabulary.nonterminals.toList.length ≤ ({} : Budget).walkSteps := by
    decide
  have hruns : Runs backwards .left 'S' ['b', 'a', 'a'] :=
    .advance (r := ['A', 'b']) (by decide) rfl
      (.advance (r := ['A', 'a']) (by decide) rfl (.close (r := ['a']) (by decide) (by decide)))
  have hterminals : ∀ c ∈ ['a', 'a', 'b'], c ∈ backwards.vocabulary.terminals := by
    rw [List.forall_mem_cons, List.forall_mem_cons, List.forall_mem_singleton]
    decide
  have hgenerates : backwards.Generates ['a', 'a', 'b'] := ⟨hterminals, hruns.derives⟩
  refine ⟨hlevel, by decide, hsteps, ?_⟩
  exact (walk_accepts_iff_generates (w := ['a', 'a', 'b']) hlevel hsteps).mpr hgenerates

end LinearWalk

end PhraseStructure
