import PhraseStructure.Proofs.Arena
import PhraseStructure.Proofs.Renaming

/-!
# Searches run in step with their renamed copies

Every search of this library keeps a queue in order of discovery and a set of what it has discovered.  The
order of the queue is that of productions and alternatives, which renaming leaves alone, and the set is
only asked whether it has a member.  So a search of the renamed grammar takes the same turns as that of the
original one: after every step its queue holds the renamed nodes in the same order.  This is what makes the
two agree for every budget, also for one that runs out in between.

A breadth-first exploration is followed in `Frontier.Image`, a chart in `Sweep.Image`; in both, one step
keeps the relation and the run follows by induction on the steps that are left.

## Main definitions

* `Frontier.Image`, `ItemSet.Image`, `Sweep.Image`: a state of the work and its renamed copy.
* `Renaming.ActsAlike`: what two grammars have in common that differ in the names of their symbols.

## Main results

* `Frontier.Image.explore`, `Frontier.search_of_image`: explorations run in step, and searches end alike.
* `Sweep.Image.finish`, `Chart.Image.fill`: charts are filled in step.
* `Renaming.renamed_grammar_acts_alike`: renaming the input renames what comes out, and changes nothing else.
-/

namespace PhraseStructure

/-! ## Explorations -/

namespace Frontier

variable {μ ν κ ι ω ω' τ τ' : Type} [BEq κ] [Hashable κ] [BEq ι] [Hashable ι]

/-- A frontier and its copy: the nodes are mapped in order, and the copy knows the image of a key exactly if
the original knows the key. -/
structure Image (f : μ → ν) (k : κ → ι) (frontier : Frontier μ κ) (copy : Frontier ν ι) : Prop where
  front : copy.front = frontier.front.map f
  back : copy.back = frontier.back.map f
  seen : ∀ x, copy.seen.contains (k x) = frontier.seen.contains x

variable {f : μ → ν} {k : κ → ι} {frontier : Frontier μ κ} {copy : Frontier ν ι}
  {key : μ → κ} {key' : ν → ι} {expand : μ → List μ} {expand' : ν → List ν}

theorem Image.pop? (h : Image f k frontier copy) :
    (frontier.pop? = none ∧ copy.pop? = none) ∨
      ∃ node rest rest', frontier.pop? = some (node, rest) ∧ copy.pop? = some (f node, rest') ∧
        Image f k rest rest' := by
  obtain ⟨front, back, seen⟩ := frontier
  obtain ⟨front', back', seen'⟩ := copy
  obtain ⟨rfl, rfl, hseen⟩ := h
  cases front with
  | cons node front => exact Or.inr ⟨node, _, _, rfl, rfl, rfl, rfl, hseen⟩
  | nil =>
    cases hback : back.reverse with
    | nil => exact Or.inl (by simp [Frontier.pop?, hback, ← List.map_reverse])
    | cons node rest =>
      refine Or.inr ⟨node, ⟨rest, [], seen⟩, ⟨rest.map f, [], seen'⟩, ?_, ?_, rfl, rfl, hseen⟩
      · simp [Frontier.pop?, hback]
      · simp [Frontier.pop?, hback, ← List.map_reverse]

theorem Image.toList_eq (h : Image f k frontier copy) : copy.toList = frontier.toList.map f := by
  rw [toList, toList, h.front, h.back, List.map_append, List.map_reverse]

theorem verdict_map (r : τ → τ') (f : μ → ν) (result : Option τ) (waiting : List μ) :
    verdict (result.map r) (waiting.map f) = (verdict result waiting).map r := by
  cases result with
  | some found => rfl
  | none =>
    cases waiting with
    | nil => rfl
    | cons node waiting => simp [verdict, Verdict.map]

section Lawful

variable [LawfulBEq κ] [LawfulBEq ι]

theorem Image.offer (hk : Function.Injective k) (hkey : ∀ node, key' (f node) = k (key node))
    (h : Image f k frontier copy) (node : μ) :
    Image f k (frontier.offer key node) (copy.offer key' (f node)) := by
  unfold Frontier.offer
  rw [hkey, h.seen]
  split
  · exact h
  · refine ⟨h.front, ?_, ?_⟩
    · rw [List.map_cons, h.back]
    · intro x
      have hbeq : (k (key node) == k x) = (key node == x) :=
        beq_eq_beq.mpr hk.eq_iff
      rw [Std.HashSet.contains_insert, Std.HashSet.contains_insert, h.seen, hbeq]

theorem Image.foldl_offer (hk : Function.Injective k) (hkey : ∀ node, key' (f node) = k (key node))
    (h : Image f k frontier copy) (nodes : List μ) :
    Image f k (nodes.foldl (Frontier.offer key) frontier)
      ((nodes.map f).foldl (Frontier.offer key') copy) := by
  induction nodes generalizing frontier copy with
  | nil => exact h
  | cons node nodes ih => exact ih (h.offer hk hkey node)

/-- **Explorations run in step**: the copy has the same steps left, has gathered the image of what was
gathered, and has the image of the same frontier before it. -/
theorem Image.explore (hk : Function.Injective k) (hkey : ∀ node, key' (f node) = k (key node))
    (hexpand : ∀ node, expand' (f node) = (expand node).map f) (r : ω → ω')
    (gather : ω → μ → ω) (gather' : ω' → ν → ω')
    (hgather : ∀ x node, gather' (r x) (f node) = r (gather x node))
    (enough : ω → Bool) (enough' : ω' → Bool) (henough : ∀ x, enough' (r x) = enough x)
    (steps : Nat) (gathered : ω) (h : Image f k frontier copy) :
    ∃ left result final final',
      Frontier.explore key expand gather enough steps gathered frontier = (left, result, final) ∧
      Frontier.explore key' expand' gather' enough' steps (r gathered) copy = (left, r result, final') ∧
      Image f k final final' := by
  -- Both have enough at the same time, and nothing waits on one side if nothing waits on the other.
  induction steps generalizing gathered frontier copy with
  | zero => exact ⟨0, gathered, frontier, copy, rfl, rfl, h⟩
  | succ steps ih =>
    rw [Frontier.explore, Frontier.explore, henough]
    split
    · exact ⟨steps + 1, gathered, frontier, copy, rfl, rfl, h⟩
    · rcases h.pop? with ⟨hnone, hnone'⟩ | ⟨node, rest, rest', hpop, hpop', hrest⟩
      · rw [hnone, hnone']
        exact ⟨steps + 1, gathered, frontier, copy, rfl, rfl, h⟩
      · rw [hpop, hpop']
        dsimp only
        rw [hgather, hexpand]
        exact ih (gather gathered node) (hrest.foldl_offer hk hkey (expand node))

theorem image_singleton (hk : Function.Injective k) (hkey : ∀ node, key' (f node) = k (key node))
    (root : μ) : Image f k (singleton key root) (singleton key' (f root)) := by
  refine ⟨rfl, rfl, ?_⟩
  intro x
  simp [singleton, hkey, hk.eq_iff]

/-- **A copy of a search ends as the search does**, with a copy of what was found. -/
theorem search_of_image (hk : Function.Injective k) (hkey : ∀ node, key' (f node) = k (key node))
    (hexpand : ∀ node, expand' (f node) = (expand node).map f) {r : τ → τ'}
    {goal : μ → Option τ} {goal' : ν → Option τ'}
    (hgoal : ∀ node, goal' (f node) = (goal node).map r) (steps : Nat) (root : μ) :
    search key' expand' goal' steps (f root) = (search key expand goal steps root).map r := by
  obtain ⟨left, result, final, final', hrun, hrun', hfinal⟩ :=
    (image_singleton hk hkey root).explore hk hkey hexpand (Option.map r) (fun _ node => goal node)
      (fun _ node => goal' node) (fun _ node => hgoal node) Option.isSome Option.isSome
      (fun _ => Option.isSome_map) steps none
  rw [Option.map_none] at hrun'
  rw [search_eq_verdict key' expand' goal' steps _ hrun', search_eq_verdict key expand goal steps _ hrun,
    hfinal.toList_eq, verdict_map]

/-- A copy of a search finds something exactly if the search does. -/
theorem search_found_iff_of_image (hk : Function.Injective k)
    (hkey : ∀ node, key' (f node) = k (key node))
    (hexpand : ∀ node, expand' (f node) = (expand node).map f) {r : τ → τ'}
    {goal : μ → Option τ} {goal' : ν → Option τ'}
    (hgoal : ∀ node, goal' (f node) = (goal node).map r) (steps : Nat) (root : μ) :
    (∃ found', search key' expand' goal' steps (f root) = .found found') ↔
      ∃ found, search key expand goal steps root = .found found := by
  rw [search_of_image hk hkey hexpand hgoal]
  cases search key expand goal steps root with
  | found result => exact ⟨fun _ => ⟨result, rfl⟩, fun _ => ⟨r result, rfl⟩⟩
  | exhausted => simp [Verdict.map]
  | gaveUp waiting => simp [Verdict.map]

end Lawful

end Frontier

namespace Renaming

variable (p : Renaming) (g : Grammar)

/-! ## Walks -/

/-- A step of a derivation with its words renamed. -/
def step (s : Step) : Step :=
  ⟨p.word s.left, p.word s.right, p.word s.form⟩

theorem alternatives_grammar (c : Symbol) :
    (p.grammar g).alternatives (p c) = (g.alternatives c).map p.word := by
  simp [Grammar.alternatives, grammar, List.filter_map, Function.comp_def, List.flatMap_map,
    List.map_flatMap]

@[simp]
theorem orient_word (d : Direction) (w : Word) : d.orient (p.word w) = p.word (d.orient w) := by
  cases d with
  | right => rfl
  | left => exact (p.word_reverse w).symm

/-- A place of a walk with everything renamed. -/
def place (node : LinearWalk.Node) : LinearWalk.Node where
  state := p node.state
  read := p.word node.read
  rest := p.word node.rest
  path := node.path.map p.step

theorem form_word (d : Direction) (read tail : Word) :
    LinearWalk.form d (p.word read) (p.word tail) = p.word (LinearWalk.form d read tail) := by
  rw [LinearWalk.form, LinearWalk.form, ← word_reverse, ← word_append, orient_word]

/-- The place that a move from another leads to, one symbol of the input further. -/
theorem advance?_place (d : Direction) (node : LinearWalk.Node) (r : Word) :
    LinearWalk.advance? d (p.place node) (p.word r) = (LinearWalk.advance? d node r).map p.place := by
  obtain ⟨state, read, rest, path⟩ := node
  unfold LinearWalk.advance?
  rw [orient_word]
  simp only [place]
  match d.orient r, rest with
  | [a, state'], b :: rest =>
    have hform := p.form_word d (b :: read) [state']
    by_cases hab : a = b
    · simp_all [place, step]
    · simp [hab]
  | [], _ | [_], _ | [_, _], [] | _ :: _ :: _ :: _, _ => rfl

theorem close?_place (d : Direction) (node : LinearWalk.Node) (r : Word) :
    LinearWalk.close? d (p.place node) (p.word r) =
      (LinearWalk.close? d node r).map (List.map p.step) := by
  obtain ⟨state, read, rest, path⟩ := node
  unfold LinearWalk.close?
  rw [orient_word]
  simp only [place]
  match d.orient r, rest with
  | [], [] =>
    have hform := p.form_word d read []
    simp_all [step]
  | [a], [b] =>
    have hform := p.form_word d (b :: read) []
    by_cases hab : a = b
    · simp_all [step]
    · simp [hab]
  | [], _ :: _ | [_], [] | [_], _ :: _ :: _ | _ :: _ :: _, _ => rfl

theorem moves_place (d : Direction) (node : LinearWalk.Node) :
    LinearWalk.moves (p.grammar g) d (p.place node) = (LinearWalk.moves g d node).map p.place := by
  unfold LinearWalk.moves
  rw [show (p.place node).state = p node.state from rfl, alternatives_grammar, List.filterMap_map,
    List.map_filterMap]
  congr 1
  funext r
  exact p.advance?_place d node r

theorem finish?_place (d : Direction) (node : LinearWalk.Node) :
    LinearWalk.finish? (p.grammar g) d (p.place node) =
      (LinearWalk.finish? g d node).map (List.map p.step) := by
  unfold LinearWalk.finish?
  rw [show (p.place node).state = p node.state from rfl, alternatives_grammar, List.findSome?_map]
  have hcomp : LinearWalk.close? d (p.place node) ∘ p.word =
      Option.map (List.map p.step) ∘ LinearWalk.close? d node :=
    funext (p.close?_place d node)
  rw [hcomp, ← List.map_findSome?]
  simp [Function.comp_def]

theorem walk_accepted (b : Budget) (w : Word) :
    (LinearWalk.answer (p.grammar g) b (p.word w)).outcome.accepted =
      (LinearWalk.answer g b w).outcome.accepted := by
  rw [Bool.eq_iff_iff, LinearWalk.answer, LinearWalk.answer, Verdict.accepted_answer,
    Verdict.accepted_answer, direction_grammar]
  have horigin : LinearWalk.origin (p.grammar g) (g.direction.getD .right) (p.word w) =
      p.place (LinearWalk.origin g (g.direction.getD .right) w) := by
    simp [LinearWalk.origin, place, grammar]
  unfold LinearWalk.search
  rw [horigin]
  -- A place is known by its state, which is renamed, and by a number, which is not.
  refine Frontier.search_found_iff_of_image (k := fun x => (p x.1, x.2)) ?_ ?_ (p.moves_place g _)
    (p.finish?_place g _) b.walkSteps _
  · rintro ⟨c, n⟩ ⟨d, m⟩ heq
    simpa using heq
  · intro node
    simp [LinearWalk.key, place]

/-! ## Searches over forms -/

theorem stripFront_word (w form : Word) :
    stripFront (p.word w) (p.word form) = (stripFront w form).map p.word := by
  induction w generalizing form with
  | nil => rfl
  | cons c w ih =>
    cases form with
    | nil => rfl
    | cons d form =>
      simp only [word_cons, stripFront, apply_inj]
      split
      · exact ih form
      · rfl

theorem splits_word (w form : Word) :
    splits (p.word w) (p.word form) = (splits w form).map (Prod.map p.word p.word) := by
  induction form with
  | nil => rfl
  | cons c form ih =>
    have hstrip := p.stripFront_word w (c :: form)
    rw [word_cons] at hstrip
    rw [word_cons, splits, hstrip, ih, splits]
    cases stripFront w (c :: form) with
    | none => simp [Function.comp_def]
    | some rest => simp [Function.comp_def]

theorem successors_grammar (form : Word) :
    (p.grammar g).successors (p.word form) = (g.successors form).map p.step := by
  simp [Grammar.successors, grammar, splits_word, List.flatMap_map, List.map_flatMap, Function.comp_def,
    step]

/-- A form of a search and the way to it with everything renamed. -/
def reached (node : FormSearch.Node) : FormSearch.Node where
  form := p.word node.form
  path := node.path.map p.step

theorem moves_reached (cap : Nat) (node : FormSearch.Node) :
    FormSearch.moves (p.grammar g) cap (p.reached node) =
      (FormSearch.moves g cap node).map p.reached := by
  simp [FormSearch.moves, reached, successors_grammar, List.filter_map, Function.comp_def, step]

theorem search_accepted (b : Budget) (w : Word) :
    (FormSearch.answer (p.grammar g) b (p.word w)).map (·.outcome.accepted) =
      (FormSearch.answer g b w).map (·.outcome.accepted) := by
  have hcap : FormSearch.cap (p.grammar g) b (p.word w).length = FormSearch.cap g b w.length := by
    rw [length_word, FormSearch.cap, FormSearch.cap, level_grammar]
  unfold FormSearch.answer
  rw [hcap]
  cases FormSearch.cap g b w.length with
  | error overflow => rfl
  | ok cap =>
    refine congrArg Except.ok ?_
    rw [Bool.eq_iff_iff, Verdict.accepted_answer, Verdict.accepted_answer]
    have hkey : ∀ node, (p.reached node).form = p.word node.form := fun _ => rfl
    have hgoal : ∀ node, FormSearch.finish? (p.word w) (p.reached node) =
        (FormSearch.finish? w node).map (List.map p.step) := by
      intro node
      simp only [FormSearch.finish?, reached, word_inj]
      split <;> simp
    exact Frontier.search_found_iff_of_image p.word_injective hkey (p.moves_reached g cap) hgoal
      b.searchSteps ⟨[g.start], []⟩

/-! ## Enumeration -/

theorem firstSuccessors_grammar (form : Word) :
    (p.grammar g).firstSuccessors (p.word form) = (g.firstSuccessors form).map p.word := by
  unfold Grammar.firstSuccessors
  rw [grammar, List.flatMap_map, List.map_flatMap]
  congr 1
  funext q
  rw [left_production, splits_word]
  cases splits q.left form with
  | nil => rfl
  | cons split rest => simp [Function.comp_def]

theorem kept_grammar (b : Budget) (form : Word) :
    (p.grammar g).kept b (p.word form) = (g.kept b form).map p.word := by
  simp [Grammar.kept, firstSuccessors_grammar, List.filter_map, Function.comp_def]

/-- The words are found in the same order; only their order in the listing may change. -/
theorem harvest_grammar (b : Budget) (n : Nat) :
    (p.grammar g).harvest b n = ((g.harvest b n).1, (g.harvest b n).2.map p.word) := by
  have hkey : ∀ form : Word, id (p.word form) = p.word (id form) := fun _ => rfl
  -- A word is gathered exactly if its copy is.
  have hgather : ∀ (words : Array Word) (form : Word),
      (if (p.grammar g).vocabulary.allTerminal (p.word form) then
        (words.map p.word).push (p.word form) else words.map p.word) =
      (if g.vocabulary.allTerminal form then words.push form else words).map p.word := by
    intro words form
    rw [show (p.grammar g).vocabulary = p.vocabulary g.vocabulary from rfl, allTerminal_word]
    split
    · rw [Array.map_push]
    · rfl
  obtain ⟨left, words, final, final', hrun, hrun', -⟩ :=
    (Frontier.image_singleton p.word_injective hkey [g.start]).explore p.word_injective hkey
      (p.kept_grammar g b) (Array.map p.word)
      (fun words form => if g.vocabulary.allTerminal form then words.push form else words)
      (fun words form => if (p.grammar g).vocabulary.allTerminal form then words.push form else words)
      hgather (fun words => n ≤ words.size) (fun words => n ≤ words.size) (fun _ => by simp)
      b.enumerationSteps #[]
  have hharvest : g.harvest b n = (left, words) := by
    unfold Grammar.harvest
    exact congrArg (fun run => (run.1, run.2.1)) hrun
  have hharvest' : (p.grammar g).harvest b n = (left, words.map p.word) := by
    rw [Array.map_empty] at hrun'
    unfold Grammar.harvest
    exact congrArg (fun run => (run.1, run.2.1)) hrun'
  rw [hharvest, hharvest']

/-! ## Charts -/

/-- A rule with both its sides renamed. -/
def replacement (rule : Rule) : Rule :=
  ⟨p rule.left, p.word rule.right⟩

/-- A rule under way with its symbols renamed; dot and origin stay. -/
def item (item : Item) : Item :=
  ⟨p.replacement item.rule, item.dot, item.origin⟩

theorem item_injective : Function.Injective p.item := by
  rintro ⟨⟨left, right⟩, dot, origin⟩ ⟨⟨left', right'⟩, dot', origin'⟩ h
  simpa [item, replacement] using h

@[simp]
theorem next?_item (item : Item) : (p.item item).next? = item.next?.map p := by
  simp [Item.next?, Renaming.item, replacement, word]

@[simp]
theorem left_item (item : Item) : (p.item item).rule.left = p item.rule.left := rfl

@[simp]
theorem origin_item (item : Item) : (p.item item).origin = item.origin := rfl

@[simp]
theorem isComplete_item (item : Item) : (p.item item).isComplete = item.isComplete := by
  simp [Item.isComplete]

theorem advance_item (item : Item) : (p.item item).advance = p.item item.advance := rfl

theorem rules_grammar : (p.grammar g).rules = g.rules.map p.replacement := by
  unfold Grammar.rules
  rw [grammar, List.flatMap_map, List.map_flatMap]
  congr 1
  funext q
  rw [singleLeft_production]
  cases q.singleLeft with
  | none => rfl
  | some c => simp [replacement, Function.comp_def]

theorem predicted_map (rules : List Rule) (c : Symbol) (position : Nat) :
    Sweep.predicted (rules.map p.replacement) (p c) position =
      (Sweep.predicted rules c position).map p.item := by
  simp [Sweep.predicted, List.filter_map, Function.comp_def, replacement, item]

theorem advanced_map (items : Array Item) (c : Symbol) :
    Sweep.advanced (items.map p.item) (p c) = (Sweep.advanced items c).map p.item := by
  simp [Sweep.advanced, List.filter_map, Function.comp_def, advance_item]

end Renaming

variable {p : Renaming}

/-- A set of items and its copy. -/
structure ItemSet.Image (p : Renaming) (set copy : ItemSet) : Prop where
  items : copy.items = set.items.map p.item
  seen : ∀ item, copy.seen.contains (p.item item) = set.seen.contains item

namespace ItemSet

variable {set copy : ItemSet}

theorem image_empty : Image p empty empty where
  items := by simp [empty]
  seen := by simp [empty]

theorem Image.insert (h : Image p set copy) (item : Item) :
    Image p (set.insert item) (copy.insert (p.item item)) := by
  unfold ItemSet.insert
  rw [h.seen]
  split
  · exact h
  · refine ⟨?_, ?_⟩
    · rw [h.items, Array.map_push]
    · intro item'
      have hbeq : (p.item item == p.item item') = (item == item') :=
        beq_eq_beq.mpr p.item_injective.eq_iff
      rw [Std.HashSet.contains_insert, Std.HashSet.contains_insert, h.seen, hbeq]

theorem Image.insertAll (h : Image p set copy) (items : List Item) :
    Image p (set.insertAll items) (copy.insertAll (items.map p.item)) := by
  induction items generalizing set copy with
  | nil => exact h
  | cons item items ih => exact ih (h.insert item)

theorem Image.size (h : Image p set copy) : copy.size = set.size := by
  rw [ItemSet.size, ItemSet.size, h.items, Array.size_map]

end ItemSet

/-- A chart and its copy.  What a set was asked for is forgotten once the set is finished. -/
structure Chart.Image (p : Renaming) (chart copy : Chart) : Prop where
  size : copy.size = chart.size
  items : ∀ q : Nat, copy[q]?.map ItemSet.items = (chart[q]?.map ItemSet.items).map (Array.map p.item)

/-- The work at a position and its copy. -/
structure Sweep.Image (p : Renaming) (s copy : Sweep) : Prop where
  current : ItemSet.Image p s.current copy.current
  following : ItemSet.Image p s.following copy.following
  index : copy.index = s.index
  grew : copy.grew = s.grew
  nullable : copy.nullable = s.nullable

namespace Sweep

variable {s copy : Sweep} {earlier earlier' : Chart}

theorem image_start {set set' : ItemSet} (h : ItemSet.Image p set set') :
    Image p (.start set) (.start set') :=
  ⟨h, ItemSet.image_empty, rfl, rfl, rfl⟩

theorem Image.next? (h : Image p s copy) :
    Option.Rel (fun x y => y.1 = p.item x.1 ∧ Image p x.2 y.2) s.next? copy.next? := by
  unfold Sweep.next?
  rw [h.index, h.grew, h.nullable, h.current.items, Array.getElem?_map, Array.getElem?_map]
  cases s.current.items[s.index]? with
  | some item => exact .some ⟨rfl, h.current, h.following, rfl, rfl, rfl⟩
  | none =>
    simp only [Option.map_none]
    split
    · cases s.current.items[0]? with
      | none => exact .none
      | some item => exact .some ⟨rfl, h.current, h.following, rfl, rfl, rfl⟩
    · exact .none

theorem Image.add (h : Image p s copy) (items : List Item) :
    Image p (s.add items) (copy.add (items.map p.item)) where
  current := h.current.insertAll items
  following := h.following
  index := h.index
  grew := by simp [Sweep.add, h.grew, h.current.size, (h.current.insertAll items).size]
  nullable := h.nullable

theorem Image.itemsAt (h : Image p s copy) (hearlier : Chart.Image p earlier earlier') (origin : Nat) :
    copy.itemsAt earlier' origin = (s.itemsAt earlier origin).map p.item := by
  unfold Sweep.itemsAt
  rw [hearlier.size, hearlier.items, h.current.items]
  split
  · rfl
  · cases earlier[origin]? with
    | none => simp
    | some set => rfl

theorem Image.process (v : Vocabulary) (rules : List Rule) (input : Option Symbol)
    (h : Image p s copy) (hearlier : Chart.Image p earlier earlier') (item : Item) :
    Image p (process v rules earlier input s item)
      (process (p.vocabulary v) (rules.map p.replacement) earlier' (input.map p) copy
        (p.item item)) := by
  unfold Sweep.process
  rw [p.next?_item]
  cases item.next? with
  | some c =>
    have hinput : input.map p = some (p c) ↔ input = some c := by
      rw [← Option.map_some, (Option.map_injective p.injective).eq_iff]
    simp only [Option.map_some, Renaming.isNonterminal_apply, hinput, hearlier.size]
    split
    · rw [p.predicted_map]
      exact h.add _
    · split
      · exact { h with following := h.following.insert item.advance }
      · exact h
  | none =>
    simp only [Option.map_none, p.origin_item, p.left_item, h.itemsAt hearlier, p.advanced_map, hearlier.size,
      h.nullable]
    -- The completion is noted on both sides before the items are added.
    have hnoted : Image p { s with nullable := s.nullable || decide (item.origin = earlier.size) }
        { copy with nullable := s.nullable || decide (item.origin = earlier.size) } :=
      { h with nullable := rfl }
    exact hnoted.add _

/-- The sets of a position are completed in step, and use up as many steps. -/
theorem Image.finish (v : Vocabulary) (rules : List Rule) (input : Option Symbol)
    (hearlier : Chart.Image p earlier earlier') (steps : Nat) (h : Image p s copy) :
    Option.Rel (fun x y => y.1 = x.1 ∧ Image p x.2 y.2) (finish v rules earlier input steps s)
      (finish (p.vocabulary v) (rules.map p.replacement) earlier' (input.map p) steps copy) := by
  induction steps generalizing s copy with
  | zero =>
    unfold Sweep.finish
    have hnext := h.next?
    generalize s.next? = x, copy.next? = y at hnext
    cases hnext with
    | none => exact .some ⟨rfl, h⟩
    | some _ => exact .none
  | succ steps ih =>
    unfold Sweep.finish
    have hnext := h.next?
    generalize s.next? = x, copy.next? = y at hnext
    cases hnext with
    | none => exact .some ⟨rfl, h⟩
    | @some x y hxy =>
      obtain ⟨item, s⟩ := x
      obtain ⟨item', copy⟩ := y
      obtain ⟨rfl, himage⟩ := hxy
      exact ih (himage.process v rules input hearlier item)

end Sweep

namespace Chart

variable {chart copy : Chart}

theorem image_empty : Image p #[] #[] where
  size := rfl
  items := by simp

theorem Image.push (h : Image p chart copy) {set set' : ItemSet} (hset : ItemSet.Image p set set') :
    Image p (chart.push set) (copy.push set') where
  size := by rw [Array.size_push, Array.size_push, h.size]
  items := by
    intro q
    rw [Array.getElem?_push, Array.getElem?_push, h.size]
    split
    · simp [hset.items]
    · exact h.items q

theorem Image.fill (v : Vocabulary) (rules : List Rule) (rest : Word) (h : Image p chart copy)
    {set set' : ItemSet} (hset : ItemSet.Image p set set') (steps : Nat) :
    Option.Rel (Image p) (fill v rules rest chart set steps)
      (fill (p.vocabulary v) (rules.map p.replacement) (p.word rest) copy set' steps) := by
  induction rest generalizing chart copy set set' steps with
  | nil =>
    have hfinish := (Sweep.image_start hset).finish v rules none h steps
    rw [p.word_nil, Chart.fill, Chart.fill]
    rw [Option.map_none] at hfinish
    generalize Sweep.finish v rules chart none steps (.start set) = x at hfinish ⊢
    generalize Sweep.finish _ _ copy none steps (.start set') = y at hfinish ⊢
    cases hfinish with
    | none => exact .none
    | some hxy => exact .some (h.push hxy.2.current)
  | cons c rest ih =>
    have hfinish := (Sweep.image_start hset).finish v rules (some c) h steps
    rw [p.word_cons, Chart.fill, Chart.fill]
    rw [Option.map_some] at hfinish
    generalize Sweep.finish v rules chart (some c) steps (.start set) = x at hfinish ⊢
    generalize Sweep.finish _ _ copy (some (p c)) steps (.start set') = y at hfinish ⊢
    cases hfinish with
    | none => exact .none
    | @some x y hxy =>
      obtain ⟨left, s⟩ := x
      obtain ⟨left', s'⟩ := y
      obtain ⟨rfl, himage⟩ := hxy
      exact ih (h.push himage.current) himage.following left'

theorem image_build (p : Renaming) (g : Grammar) (steps : Nat) (w : Word) :
    Option.Rel (Image p) (build g steps w) (build (p.grammar g) steps (p.word w)) := by
  unfold build
  have hseed := p.predicted_map g.rules g.start 0
  rw [← p.rules_grammar] at hseed
  rw [show (p.grammar g).start = p g.start from rfl, hseed, p.rules_grammar]
  exact image_empty.fill g.vocabulary g.rules w (ItemSet.image_empty.insertAll _) steps

theorem Image.accepts (h : Image p chart copy) (c : Symbol) (n : Nat) :
    copy.accepts (p c) n = chart.accepts c n := by
  -- A position that is missing on one side is missing on the other.
  have hitems : itemsAt copy n = (itemsAt chart n).map p.item := by
    have hn := h.items n
    unfold itemsAt
    cases hchart : chart[n]? with
    | none => simp_all
    | some set =>
      obtain ⟨set', hcopy, hset'⟩ : ∃ set', copy[n]? = some set' ∧ set'.items = set.items.map p.item := by
        simpa [hchart] using hn
      simp [hcopy, hset']
  unfold Chart.accepts completedAt
  have hcomplete : Item.isComplete ∘ p.item = Item.isComplete := funext p.isComplete_item
  rw [hitems, List.filter_map, hcomplete, List.any_map]
  congr 1
  funext item
  have hleft : decide ((p.item item).rule.left = p c) = decide (item.rule.left = c) :=
    decide_eq_decide.mpr p.apply_inj
  show (decide (item.origin = 0) && decide ((p.item item).rule.left = p c)) = _
  rw [hleft]

theorem accepted_grammar (p : Renaming) (g : Grammar) (b : Budget) (w : Word) :
    (Chart.answer (p.grammar g) b (p.word w)).outcome.accepted =
      (Chart.answer g b w).outcome.accepted := by
  have himage := image_build p g b.chartSteps w
  unfold Chart.answer
  generalize build g b.chartSteps w = x at himage ⊢
  generalize build (p.grammar g) b.chartSteps (p.word w) = y at himage ⊢
  cases himage with
  | none => rfl
  | some h =>
    show accepts _ (p g.start) (p.word w).length = _
    rw [p.length_word]
    exact h.accepts g.start w.length

end Chart

namespace Renaming

theorem answerWord_grammar (p : Renaming) (g : Grammar) (b : Budget) (w : Word) :
    ((p.grammar g).answerWord b (p.word w)).map (·.outcome.accepted) =
      (g.answerWord b w).map (·.outcome.accepted) := by
  have hstrategy : (p.grammar g).strategy = g.strategy := by
    rw [Grammar.strategy, Grammar.strategy, p.level_grammar]
  have hstray : ((p.word w).find? fun c => !(p.grammar g).vocabulary.isTerminal c) =
      (w.find? fun c => !g.vocabulary.isTerminal c).map p := by
    rw [word, List.find?_map]
    simp [Function.comp_def, grammar]
  unfold Grammar.answerWord
  rw [hstray, hstrategy]
  cases w.find? fun c => !g.vocabulary.isTerminal c with
  | some stray => rfl
  | none =>
    show ((p.grammar g).answerBy b (p.word w) g.strategy).map _ = (g.answerBy b w g.strategy).map _
    cases g.strategy with
    | walk => exact congrArg Except.ok (p.walk_accepted g b w)
    | chart => exact congrArg Except.ok (Chart.accepted_grammar p g b w)
    | search => exact p.search_accepted g b w

/-- Two grammars that differ in the names of their symbols: same level and same direction, the same
verdict on every renamed text whatever the budget, and the same words in every listing, renamed. -/
structure ActsAlike (p : Renaming) (g g' : Grammar) : Prop where
  level : g'.level = g.level
  direction : g'.direction = g.direction
  accepted : ∀ (b : Budget) (input : String),
    (g'.answer b (p.text input)).map (·.outcome.accepted) = (g.answer b input).map (·.outcome.accepted)
  listed : ∀ (b : Budget) (n : Nat) (w : Word),
    w ∈ (g'.enumerate b n).1 ↔ ∃ v ∈ (g.enumerate b n).1, w = p.word v

theorem actsAlike_grammar (p : Renaming) (g : Grammar) : p.ActsAlike g (p.grammar g) where
  level := p.level_grammar g
  direction := p.direction_grammar g
  accepted := by
    intro b input
    rw [Grammar.answer, Grammar.answer, p.read_text]
    exact p.answerWord_grammar g b (Word.read input)
  listed := by
    intro b n w
    simp only [Grammar.mem_enumerate_iff, p.harvest_grammar, Array.toList_map, List.mem_map, eq_comm]

/-- **Symbols have no inner structure.**  A description with every symbol renamed can be put together exactly
if the original can, and the two grammars act alike. -/
theorem renamed_grammar_acts_alike (p : Renaming) (nonterminals terminals : String)
    (rules : List (String × List String)) (start : Symbol) :
    ((∃ g', Grammar.ofRules (p.text nonterminals) (p.text terminals) (rules.map p.rule) (p start) =
        .ok g') ↔ ∃ g, Grammar.ofRules nonterminals terminals rules start = .ok g) ∧
      ∀ g g', Grammar.ofRules nonterminals terminals rules start = .ok g →
        Grammar.ofRules (p.text nonterminals) (p.text terminals) (rules.map p.rule) (p start) =
          .ok g' → p.ActsAlike g g' := by
  refine ⟨p.exists_ofRules_iff nonterminals terminals rules start, ?_⟩
  intro g g' hg hg'
  rw [p.ofRules_of_eq_ok hg] at hg'
  cases hg'
  exact p.actsAlike_grammar g

/-- The renaming that exchanges `a` and `b`. -/
def exchange : Renaming where
  perm := Equiv.swap 'a' 'b'
  keeps_mark := by decide

theorem exchanged_brackets_act_alike :
    ∃ g g', Grammar.ofRules "S" "ab" [("S", ["aSb", "ε"])] 'S' = .ok g ∧
      Grammar.ofRules "S" "ba" [("S", ["bSa", "ε"])] 'S' = .ok g' ∧ exchange.ActsAlike g g' := by
  have hrules : [("S", ["aSb", "ε"])].map exchange.rule = [("S", ["bSa", "ε"])] := by decide
  obtain ⟨g, hg⟩ : ∃ g, Grammar.ofRules "S" "ab" [("S", ["aSb", "ε"])] 'S' = .ok g := ⟨_, rfl⟩
  obtain ⟨hexists, hacts⟩ :=
    exchange.renamed_grammar_acts_alike "S" "ab" [("S", ["aSb", "ε"])] 'S'
  obtain ⟨g', hg'⟩ := hexists.mpr ⟨g, hg⟩
  refine ⟨g, g', hg, ?_, hacts g g' hg hg'⟩
  rw [hrules] at hg'
  exact hg'

end Renaming

end PhraseStructure
