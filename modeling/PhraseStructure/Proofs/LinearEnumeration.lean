import PhraseStructure.Proofs.Agreement

/-!
# The listing of a regular grammar never outruns its walk

The sentential forms of a regular grammar hold terminals and then, as seen in the direction of the grammar,
at most one nonterminal.  Such a form says as much as a node of the walk: its terminals are the symbols that
have been read, and the nonterminal is the state.  The enumeration therefore goes wherever a walk goes
(`leads_form`), and a walk follows every form that the enumeration expands, as long as the symbols of
the form are symbols of the input (`open_of_leads`).

Both explore layer by layer, and the layers agree: a form has one terminal for each step.  Where the
enumeration has visited a word, it has visited all forms that are fewer steps away, and those are at least
as many as the nodes that the walk can visit before it is able to finish.  So the walk finds its goal with no
more steps than the enumeration took (`listed_words_walked`), however tight the budget is.

## Main definitions

* `LinearWalk.Place`: what is known about the nodes of a walk.
* `LinearWalk.Open`: a form of the enumeration that holds a nonterminal.

## Main results

* `LinearWalk.leads_form`: the enumeration goes where the walk goes.
* `LinearWalk.open_of_leads`: the walk goes where the enumeration goes.
* `LinearWalk.listed_words_walked`: every word listed is accepted.
-/

namespace PhraseStructure

namespace LinearWalk

variable {g : Grammar} {b : Budget} {d : Direction} {c : Symbol} {f f' read w : Word} {k n : Nat}
  {node : Node}

/-! ## One step from a linear form -/

/-- Where a form holds one nonterminal behind terminals, only the alternatives of that nonterminal can be
used, and its first occurrence is the only one. -/
theorem mem_firstSuccessors_iff (hlevel : g.level = .regular) (hform : d.orient f = read ++ [c])
    (hread : ∀ a ∈ read, a ∈ g.vocabulary.terminals) :
    f' ∈ g.firstSuccessors f ↔ ∃ r ∈ g.alternatives c, d.orient f' = read ++ d.orient r := by
  have hunread : ∀ c' ∈ g.vocabulary.nonterminals, c' ∉ read :=
    fun c' hc' hmem => g.vocabulary.disjoint c' hc' (hread c' hmem)
  constructor
  · intro h
    obtain ⟨p, hp, r, hr, u, v, rfl, rfl⟩ := Grammar.step_of_mem_firstSuccessors h
    obtain ⟨c', hc', hleft⟩ := Grammar.exists_left_eq (Or.inr hlevel) hp
    rw [hleft] at hform
    obtain ⟨rfl, hreplace⟩ := orient_replace hform (hunread c' hc')
    exact ⟨r, Grammar.mem_alternatives.mpr ⟨p, hp, hleft, hr⟩, hreplace r⟩
  · rintro ⟨r, hr, hform'⟩
    obtain ⟨p, hp, hleft, halt⟩ := Grammar.mem_alternatives.mp hr
    obtain ⟨c', hc', hleft'⟩ := Grammar.exists_left_eq (Or.inr hlevel) hp
    obtain rfl : c' = c := by simpa [hleft] using hleft'.symm
    -- There is an occurrence, so there is a first one, and both are the same.
    obtain ⟨u, v, hsplit⟩ : ∃ u v, f = u ++ p.left ++ v := by
      obtain ⟨u, v, hcontext⟩ := exists_orient_append d read []
      refine ⟨u, v, ?_⟩
      rw [← d.orient_orient f, hform, hleft, ← d.orient_singleton c', ← hcontext, List.append_nil]
      simp
    have hmem := (mem_splits p.left_ne_nil).mpr hsplit
    obtain ⟨⟨u', v'⟩, hfirst⟩ : ∃ split, (splits p.left f).head? = some split :=
      ⟨_, List.head?_eq_some_head (List.ne_nil_of_mem hmem)⟩
    have hsplit' := (mem_splits p.left_ne_nil).mp (List.mem_of_mem_head? hfirst)
    rw [hsplit', hleft] at hform
    obtain ⟨-, hreplace⟩ := orient_replace hform (hunread c' hc')
    refine Grammar.mem_firstSuccessors.mpr ⟨p, hp, u', v', hfirst, r, halt, ?_⟩
    rw [← d.orient_orient (u' ++ r ++ v'), hreplace, ← hform', d.orient_orient]

/-! ## The enumeration goes where the walk goes -/

/-- What is known about the nodes of a walk on some input. -/
structure Place (g : Grammar) (d : Direction) (w : Word) (node : Node) : Prop where
  /-- What has been read and what is left are the input. -/
  input : d.orient w = node.read.reverse ++ node.rest
  /-- There is one step for each symbol read. -/
  path_length : node.path.length = node.read.length
  read_mem : ∀ a ∈ node.read, a ∈ g.vocabulary.terminals

theorem place_origin (g : Grammar) (d : Direction) (w : Word) : Place g d w (origin g d w) where
  input := rfl
  path_length := rfl
  read_mem _ h := absurd h List.not_mem_nil

theorem Place.move (hlinear : ∀ c, ∀ r ∈ g.alternatives c, g.vocabulary.isLinear d r = true)
    {node' : Node} (h : Place g d w node) (hmove : node' ∈ moves g d node) : Place g d w node' := by
  obtain ⟨r, hr, hadvance⟩ := mem_moves.mp hmove
  obtain ⟨a, c, rest, horient, hrest, rfl⟩ := advance?_eq_some_iff.mp hadvance
  have ha := (mem_of_isLinear_pair (hlinear _ r hr) horient).1
  constructor
  · simp [h.input, hrest]
  · simp [h.path_length]
  · exact List.forall_mem_cons.mpr ⟨ha, h.read_mem⟩

theorem place_of_leads (hlinear : ∀ c, ∀ r ∈ g.alternatives c, g.vocabulary.isLinear d r = true)
    (h : Frontier.Leads (moves g d) (origin g d w) node) : Place g d w node := by
  induction h with
  | refl => exact place_origin g d w
  | tail _ hmove ih => exact ih.move hlinear hmove

/-- **The enumeration goes where the walk goes**: the form of a node is had in as many steps as led to the
node, unless it is too long. -/
theorem leads_form (hlevel : g.level = .regular)
    (hlinear : ∀ c, ∀ r ∈ g.alternatives c, g.vocabulary.isLinear d r = true)
    (h : Frontier.Leads (moves g d) (origin g d w) node)
    (hfits : node.path.length = 0 ∨ node.path.length < b.enumerationLength) :
    Frontier.Leads (Frontier.stamped (g.kept b)) ([g.start], 0)
      (form d node.read [node.state], node.path.length) := by
  induction h with
  | refl =>
    rw [show form d (origin g d w).read [(origin g d w).state] = [g.start] from d.orient_singleton _]
    exact .refl
  | @tail node node' hbefore hmove ih =>
    have hlength := path_length_of_mem_moves hmove
    have hplace := place_of_leads hlinear hbefore
    have hplace' := hplace.move hlinear hmove
    refine (ih (by omega)).tail (Frontier.mem_stamped.mpr ⟨Grammar.mem_kept.mpr ⟨?_, ?_⟩, hlength⟩)
    · -- The alternative that the walk has used replaces the state in the form.
      obtain ⟨r, hr, hadvance⟩ := mem_moves.mp hmove
      obtain ⟨a, c, rest, horient, -, rfl⟩ := advance?_eq_some_iff.mp hadvance
      refine (mem_firstSuccessors_iff hlevel (d.orient_orient _) ?_).mpr ⟨r, hr, ?_⟩
      · exact fun x hx => hplace.read_mem x (List.mem_reverse.mp hx)
      · simp [form, horient]
    · have hread := hplace'.path_length
      simp only [form, d.length_orient, List.length_append, List.length_reverse, List.length_singleton]
      omega

/-! ## The walk goes where the enumeration goes -/

/-- A form that the enumeration has had in `k` steps and that holds a nonterminal behind the symbols read. -/
structure Open (g : Grammar) (b : Budget) (d : Direction) (k : Nat) (f read : Word) (c : Symbol) :
    Prop where
  form : d.orient f = read ++ [c]
  read_mem : ∀ a ∈ read, a ∈ g.vocabulary.terminals
  /-- There is one step for each symbol read. -/
  read_length : read.length = k
  /-- The form was kept, unless it is the start symbol. -/
  fits : k = 0 ∨ k < b.enumerationLength
  /-- On every input that begins with the symbols read, the walk has a node for the form. -/
  walk : ∀ w rest, d.orient w = read ++ rest → ∃ node,
    Frontier.Leads (moves g d) (origin g d w) node ∧ node.state = c ∧ node.rest = rest ∧
      node.path.length = k

theorem open_start (g : Grammar) (b : Budget) (d : Direction) : Open g b d 0 [g.start] [] g.start where
  form := d.orient_singleton _
  read_mem _ h := absurd h List.not_mem_nil
  read_length := rfl
  fits := Or.inl rfl
  walk w _ hw := ⟨origin g d w, .refl, rfl, hw, rfl⟩

/-- One step of the enumeration out of an open form ends in a word or opens another form. -/
theorem Open.step (hlevel : g.level = .regular)
    (hlinear : ∀ c, ∀ r ∈ g.alternatives c, g.vocabulary.isLinear d r = true)
    (h : Open g b d k f read c) (hkept : f' ∈ g.kept b f) :
    (∀ a ∈ f', a ∈ g.vocabulary.terminals) ∨ ∃ read' c', Open g b d (k + 1) f' read' c' := by
  obtain ⟨hfirst, hlength⟩ := Grammar.mem_kept.mp hkept
  obtain ⟨r, hr, hform'⟩ := (mem_firstSuccessors_iff hlevel h.form h.read_mem).mp hfirst
  rcases isLinear_cases (hlinear c r hr) with ⟨-, hterminals⟩ | ⟨a, ha, c', -, horient⟩
  · left
    have hread : ∀ a ∈ read ++ d.orient r, a ∈ g.vocabulary.terminals :=
      List.forall_mem_append.mpr ⟨h.read_mem, fun a ha => hterminals a (mem_orient.mp ha)⟩
    intro a ha
    exact hread a (hform' ▸ mem_orient.mpr ha)
  · right
    have hopen : d.orient f' = read ++ [a] ++ [c'] := by
      rw [hform', horient, List.append_assoc, List.singleton_append]
    have hread := h.read_length
    refine ⟨read ++ [a], c', hopen, ?_, by simp [hread], Or.inr ?_, ?_⟩
    · exact List.forall_mem_append.mpr ⟨h.read_mem, List.forall_mem_singleton.mpr ha⟩
    · rw [← d.length_orient, hopen] at hlength
      simp only [List.length_append, List.length_singleton] at hlength
      omega
    · -- The walk reads the terminal of the pair, which the input has in the same place.
      intro w rest hw
      rw [List.append_assoc, List.singleton_append] at hw
      obtain ⟨node, hleads, rfl, hrest, rfl⟩ := h.walk w (a :: rest) hw
      obtain ⟨node', hmove, hstate', hrest'⟩ := exists_mem_moves hr horient hrest
      exact ⟨node', hleads.tail hmove, hstate', hrest', path_length_of_mem_moves hmove⟩

/-- **The walk goes where the enumeration goes**: whatever the enumeration expands is an open form. -/
theorem open_of_leads (hlevel : g.level = .regular)
    (hlinear : ∀ c, ∀ r ∈ g.alternatives c, g.vocabulary.isLinear d r = true)
    (h : Frontier.Leads (Frontier.stamped (g.kept b)) ([g.start], 0) (f, k))
    (hexpanded : f' ∈ g.kept b f) : ∃ read c, Open g b d k f read c := by
  generalize hnode : (f, k) = node at h
  induction h generalizing f f' k with
  | refl =>
    cases hnode
    exact ⟨[], g.start, open_start g b d⟩
  | @tail before node _ hmove ih =>
    subst hnode
    obtain ⟨hkept, hk⟩ := Frontier.mem_stamped.mp hmove
    dsimp only at hkept hk
    obtain ⟨read, c, hopen⟩ := ih hkept rfl
    rcases hopen.step hlevel hlinear hkept with hterminals | hopen'
    · -- A word has no successors.
      obtain ⟨p, hp, r, -, u, v, rfl, -⟩ :=
        Grammar.step_of_mem_firstSuccessors (Grammar.mem_kept.mp hexpanded).1
      obtain ⟨c', hc', hleft⟩ := Grammar.exists_left_eq (Or.inr hlevel) hp
      exact absurd (hterminals c' (by simp [hleft])) (g.vocabulary.disjoint c' hc')
    · rwa [hk]

/-! ## Counting -/

/-- The key of the walk's node for a form, on some input. -/
def keyOf (d : Direction) (w f : Word) : Symbol × Nat :=
  ((d.orient f).getLastD default, w.length + 1 - f.length)

theorem Place.keyOf_form (h : Place g d w node) :
    keyOf d w (form d node.read [node.state]) = key node := by
  have hlength := congrArg List.length h.input
  rw [d.length_orient, List.length_append, List.length_reverse] at hlength
  have hrest : w.length + 1 - (node.read.length + 1) = node.rest.length := by omega
  simp [keyOf, key, form, hrest]

/-- **What the enumeration has visited, the walk finds**: a history with a word in it is long enough for the
walk to finish on that word. -/
theorem exists_found_of_mem_visited (hlevel : g.level = .regular)
    (hlinear : ∀ c, ∀ r ∈ g.alternatives c, g.vocabulary.isLinear d r = true)
    {visited : List (Word × Nat)} {frontier : Frontier (Word × Nat) Word}
    (history : g.History b n visited frontier) (hw : ∀ a ∈ w, a ∈ g.vocabulary.terminals)
    (hvisited : (w, k) ∈ visited) {steps : Nat} (hsteps : visited.length ≤ steps) :
    ∃ path, search g d steps w = .found path := by
  have hleads := history.layered.leads (w, k) (List.mem_append_left _ hvisited)
  cases hleads with
  | refl =>
    -- The start symbol is no word of terminals.
    exact absurd (hw g.start (List.mem_singleton_self _)) (g.vocabulary.disjoint _ g.start_mem)
  | @tail before _ hbefore hmove =>
    obtain ⟨f, j⟩ := before
    obtain ⟨hkept, rfl⟩ := Frontier.mem_stamped.mp hmove
    obtain ⟨read, c, hopen⟩ := open_of_leads hlevel hlinear hbefore hkept
    -- The last step of the enumeration ends the walk as well.
    obtain ⟨r, hr, hform⟩ := (mem_firstSuccessors_iff hlevel hopen.form hopen.read_mem).mp
      (Grammar.mem_kept.mp hkept).1
    obtain ⟨node, hnode, rfl, hrest, hpath⟩ := hopen.walk w _ hform
    have hshort : r.length ≤ 1 := by
      rcases isLinear_cases (hlinear _ r hr) with ⟨hshort, -⟩ | ⟨a, -, c', hc', horient⟩
      · exact hshort
      · have hmem : c' ∈ w := mem_orient.mp (by rw [hform, horient]; simp)
        exact absurd (hw c' hmem) (g.vocabulary.disjoint c' hc')
    have hgoal : finish? g d node ≠ none := finish?_ne_none_iff.mpr ⟨r, hr, hrest.symm, hshort⟩
    refine Frontier.exists_found_of_near (fun _ _ => path_length_of_mem_moves) (interchangeable g d _)
      hnode hgoal (visited.map fun form => keyOf d w form.1) ?_ (by rwa [List.length_map])
    -- Whatever the walk can visit before is a form with fewer steps, and has been visited.
    intro m hm hrank
    have hfits : m.path.length = 0 ∨ m.path.length < b.enumerationLength := by
      have hbefore := hopen.fits
      omega
    obtain ⟨form', hform', hkey, -⟩ := history.layered.exists_visited_of_rank_lt
      (fun _ _ hm => (Frontier.mem_stamped.mp hm).2) Frontier.sameMoves_stamped hvisited
      (leads_form hlevel hlinear hm hfits) (by simp; omega)
    refine List.mem_map.mpr ⟨form', hform', ?_⟩
    rw [hkey, (place_of_leads hlinear hm).keyOf_form]

/-! ## Listed words are accepted -/

theorem accepts_of_mem_enumerate (hlevel : g.level = .regular)
    (hsteps : b.enumerationSteps ≤ b.walkSteps) (hw : w ∈ (g.enumerate b n).1) :
    g.Accepts b w.shown := by
  obtain ⟨d, hdirection, hlinear⟩ := Grammar.isLinear_alternatives hlevel
  obtain ⟨visited, frontier, history⟩ := g.exists_history b n
  obtain ⟨hvisited, hterminal⟩ := (history.mem_enumerate w).mp hw
  have hterminals := Grammar.allTerminal_iff.mp hterminal
  obtain ⟨⟨_, k⟩, hnode, rfl⟩ := List.mem_map.mp hvisited
  have hfound := exists_found_of_mem_visited hlevel hlinear history hterminals hnode
    (history.length_le.trans hsteps)
  refine ⟨_, by rw [Grammar.answer_shown hterminals, Grammar.strategy, hlevel, Grammar.answerBy], ?_⟩
  rw [answer, Verdict.accepted_answer, hdirection, Option.getD_some]
  exact hfound

/-- **The listing of a regular grammar never outruns its walk**: if the walk may take as many steps as the
enumeration, every word listed is accepted.  The default budget is of this kind, and so is every budget with
one limit on all steps. -/
theorem listed_words_walked (g : Grammar) (hlevel : g.level = .regular) (n : Nat) :
    (∀ b : Budget, b.enumerationSteps ≤ b.walkSteps → ∀ w ∈ (g.enumerate b n).1, g.Accepts b w.shown) ∧
    (∀ w ∈ (g.enumerate {} n).1, g.Accepts {} w.shown) ∧
    ∀ (b : Budget) (steps : Nat), ∀ w ∈ (g.enumerate (b.limitSteps steps) n).1,
      g.Accepts (b.limitSteps steps) w.shown := by
  refine ⟨fun b hsteps w hw => accepts_of_mem_enumerate hlevel hsteps hw, ?_, ?_⟩
  · intro w hw
    exact accepts_of_mem_enumerate hlevel (by decide) hw
  · intro b steps w hw
    exact accepts_of_mem_enumerate hlevel (le_refl steps) hw

/-- Four steps are enough to list the only word of two symbols that is read from its end, and four steps are
then enough to accept it. -/
theorem listed_words_walked_backwards :
    backwards.level = .regular ∧ backwards.direction = some .left ∧
    ['a', 'b'] ∈ (backwards.enumerate (({ enumerationLength := 2 } : Budget).limitSteps 4) 1).1 ∧
    backwards.Accepts (({ enumerationLength := 2 } : Budget).limitSteps 4) "ab" := by
  have hlevel : backwards.level = .regular := by decide
  have hmem : ['a', 'b'] ∈
      (backwards.enumerate (({ enumerationLength := 2 } : Budget).limitSteps 4) 1).1 := by
    have hfirst : ['A', 'b'] ∈ backwards.kept (({ enumerationLength := 2 } : Budget).limitSteps 4)
        ['S'] := by decide
    have hsecond : ['a', 'b'] ∈ backwards.kept (({ enumerationLength := 2 } : Budget).limitSteps 4)
        ['A', 'b'] := by decide
    exact Grammar.mem_enumerate_of_only [['S'], ['A', 'b'], ['a', 'b']] List.mem_cons_self (by decide)
      (by decide) (by decide) (.tail (.single hfirst) hsecond) (by decide) (by decide)
  exact ⟨hlevel, by decide, hmem, (listed_words_walked backwards hlevel 1).2.2 _ 4 _ hmem⟩

end LinearWalk

end PhraseStructure
