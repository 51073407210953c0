import PhraseStructure.Proofs.Arena
import PhraseStructure.Recognition

/-!
# Walks by position and forms by byte

Two searches over stored nodes.  The walk of a regular grammar stores a state and a position of the input; it
looks symbols up by position, from the front or from the end, and cuts the input there to tell a form.  The
search over sentential forms stores the forms as texts; it finds an occurrence of a left side by its first
byte and cuts the form before it and behind it, where a cut within a symbol would be no cut at all.

Both follow the searches of this library without springing a trap.  For the walk the reason is that what was
read and what is left to read always make up the input (`LinearWalk.next_eq`, `LinearWalk.form_eq`), for the forms that
every offset is the number of bytes of a prefix (`occurrences_eq`).

## Main definitions

* `Track`: an input that is read by position in some direction.
* `LinearWalk.storedAnswer`: the walk over stored places.
* `Word.bytes`, `cutBefore`, `cutBehind`: texts by bytes.
* `FormSearch.storedAnswer`: the search over stored forms.

## Main results

* `LinearWalk.storedAnswer_eq`, `FormSearch.storedAnswer_eq`: their answers are those of this library.
-/

namespace PhraseStructure

namespace Checked

variable {α : Type}

/-- The elements in front of an index that is in range. -/
def before (xs : Array α) (i : Nat) : Checked (List α) :=
  if i ≤ xs.size then .ok (xs.toList.take i) else .error .slice

/-- The elements from an index on that is in range. -/
def onward (xs : Array α) (i : Nat) : Checked (List α) :=
  if i ≤ xs.size then .ok (xs.toList.drop i) else .error .slice

theorem before_eq_ok (xs ys : List α) : before (xs ++ ys).toArray xs.length = .ok xs := by
  simp [before]

theorem onward_eq_ok (xs ys : List α) : onward (xs ++ ys).toArray xs.length = .ok ys := by
  simp [onward]

end Checked

/-- The answer of a search that has told its derivation line by line. -/
def Verdict.told (gaveUp : Nat → Event) : Verdict (List String) → Answer
  | .found lines => ⟨⟨true, some (.linear lines)⟩, []⟩
  | .exhausted => ⟨.rejected, []⟩
  | .gaveUp waiting => ⟨.rejected, [gaveUp waiting]⟩

theorem Verdict.told_map {form : Word → String} {start : Symbol} {gaveUp : Nat → Event}
    (verdict : Verdict (List Step)) :
    (verdict.map (derivationLines form start)).told gaveUp = verdict.answer form start gaveUp := by
  cases verdict <;> rfl

/-! ## Reading by position -/

/-- An input that is read from its front or from its end. -/
structure Track where
  /-- The symbols of the input. -/
  input : Array Symbol
  /-- From which side it is read. -/
  direction : Direction

namespace Track

/-- Where reading begins. -/
def origin (t : Track) : Nat :=
  match t.direction with
  | .right => 0
  | .left => t.input.size

/-- Where reading ends. -/
def goal (t : Track) : Nat :=
  match t.direction with
  | .right => t.input.size
  | .left => 0

/-- The symbol that is read next and the position behind it, unless everything was read. -/
def next (t : Track) (position : Nat) : Checked (Option (Symbol × Nat)) :=
  match t.direction with
  | .right =>
    match t.input[position]? with
    | none => return none
    | some c => return some (c, ← Checked.add position 1)
  | .left =>
    if position = 0 then
      return none
    else
      return some (← Checked.get t.input (position - 1), position - 1)

/-- The terminal and the nonterminal of a pair. -/
def split (t : Track) (r : Word) : Option (Symbol × Symbol) :=
  match t.direction, r with
  | .right, [a, c] => some (a, c)
  | .left, [c, a] => some (a, c)
  | _, _ => none

/-- What was read up to a position, with a nonterminal that may stand there. -/
def form (t : Track) (state : Option Symbol) (position : Nat) : Checked Word :=
  match t.direction with
  | .right => return (← Checked.before t.input position) ++ state.toList
  | .left => return state.toList ++ (← Checked.onward t.input position)

end Track

namespace LinearWalk

variable {d : Direction} {w read rest : Word}

/-- The position between what was read, most recent first, and what is left to read. -/
def position : Direction → Word → Word → Nat
  | .right, read, _ => read.length
  | .left, _, rest => rest.length

theorem eq_of_orient_left_eq (h : Direction.left.orient w = read.reverse ++ rest) :
    w = rest.reverse ++ read := by
  have hback : w = (read.reverse ++ rest).reverse := by
    rw [← h]
    exact (List.reverse_reverse w).symm
  rw [hback, List.reverse_append, List.reverse_reverse]

theorem length_of_orient_eq (h : d.orient w = read.reverse ++ rest) :
    w.length = read.length + rest.length := by
  rw [← d.length_orient w, h, List.length_append, List.length_reverse]

/-- What is read next is the first symbol that is left to read. -/
theorem next_eq (h : d.orient w = read.reverse ++ rest) (hw : w.length < wordLimit) :
    Track.next ⟨w.toArray, d⟩ (position d read rest) =
      .ok (rest.head?.map fun c => (c, position d (c :: read) rest.tail)) := by
  have hlength := length_of_orient_eq h
  cases d with
  | right =>
    obtain rfl : w = read.reverse ++ rest := h
    have hget : (read.reverse ++ rest).toArray[read.length]? = rest.head? := by
      rw [List.getElem?_toArray, List.getElem?_append_right (by simp), List.length_reverse, Nat.sub_self,
        List.head?_eq_getElem?]
    simp only [Track.next, position, hget]
    cases rest with
    | nil => rfl
    | cons c rest =>
      rw [List.length_cons] at hlength
      rw [List.head?_cons, Checked.add_eq_ok (by omega)]
      rfl
  | left =>
    obtain rfl := eq_of_orient_left_eq h
    cases rest with
    | nil => rfl
    | cons c rest =>
      have hget : ((c :: rest).reverse ++ read).toArray[rest.length]? = some c := by
        rw [List.getElem?_toArray, List.reverse_cons, List.append_assoc,
          List.getElem?_append_right (by simp), List.length_reverse, Nat.sub_self]
        rfl
      simp only [Track.next, position, List.length_cons, Nat.succ_ne_zero, if_false, Nat.add_sub_cancel,
        Checked.get_eq_ok hget]
      rfl

/-- The input is cut between what was read and what is left to read. -/
theorem form_eq (h : d.orient w = read.reverse ++ rest) (state : Option Symbol) :
    Track.form ⟨w.toArray, d⟩ state (position d read rest) = .ok (form d read state.toList) := by
  cases d with
  | right =>
    obtain rfl : w = read.reverse ++ rest := h
    have hcut := Checked.before_eq_ok read.reverse rest
    rw [List.length_reverse] at hcut
    simp only [Track.form, position, hcut]
    rfl
  | left =>
    obtain rfl := eq_of_orient_left_eq h
    have hcut := Checked.onward_eq_ok rest.reverse read
    rw [List.length_reverse] at hcut
    simp only [Track.form, position, hcut]
    cases state with
    | none => simp [form, Direction.orient]
    | some c => simp [form, Direction.orient]

theorem position_eq_goal_iff (h : d.orient w = read.reverse ++ rest) :
    position d read rest = Track.goal ⟨w.toArray, d⟩ ↔ rest = [] := by
  have hlength := length_of_orient_eq h
  rw [← List.length_eq_zero_iff]
  cases d with
  | right =>
    simp only [position, Track.goal, List.size_toArray]
    omega
  | left => rfl

/-! ## The walk -/

/-- Tries an alternative of the state at a node: it may end the walk, lead to a place, or not fit. -/
def attempt (t : Track) (index : Nat) (state : Symbol) (position : Nat) (arena : Arena (Symbol × Nat))
    (r : Word) : Checked (Arena (Symbol × Nat) ⊕ List String) :=
  match r with
  | [] =>
    if position = t.goal then do
      let form ← t.form none position
      return .inr (← arena.accept index [Step.text Word.plain ⟨[state], r, form⟩])
    else
      return .inl arena
  | [a] => do
    match ← t.next position with
    | none => return .inl arena
    | some (c, reached) =>
      if a = c ∧ reached = t.goal then
        let form ← t.form none reached
        return .inr (← arena.accept index [Step.text Word.plain ⟨[state], r, form⟩])
      else
        return .inl arena
  | _ => do
    match t.split r, ← t.next position with
    | some (a, target), some (c, reached) =>
      if a = c then
        return .inl (← arena.discover index (target, reached) do
          let form ← t.form (some target) reached
          return Step.text Word.plain ⟨[state], r, form⟩)
      else
        return .inl arena
    | _, _ => return .inl arena

/-- Tries alternatives one after another until one of them ends the walk. -/
def attemptAll (t : Track) (index : Nat) (state : Symbol) (position : Nat) :
    List Word → Arena (Symbol × Nat) → Checked (Arena (Symbol × Nat) ⊕ List String)
  | [], arena => return .inl arena
  | r :: rs, arena => do
    match ← attempt t index state position arena r with
    | .inr found => return .inr found
    | .inl arena => attemptAll t index state position rs arena

/-- Visits the node at an index. -/
def visit (g : Grammar) (t : Track) (arena : Arena (Symbol × Nat)) (index : Nat) :
    Checked (Arena (Symbol × Nat) ⊕ List String) := do
  let entry ← Checked.get arena.nodes index
  attemptAll t index entry.place.1 entry.place.2 (g.alternatives entry.place.1) arena

/-- The answer of the walk over stored places. -/
def storedAnswer (g : Grammar) (b : Budget) (w : Word) : Checked Answer := do
  let t : Track := ⟨w.toArray, g.direction.getD .right⟩
  let verdict ← Arena.run (visit g t) (fun n => return n + 1) b.walkSteps (b.walkSteps + 1) 0
    (Arena.start (g.start, t.origin) g.start.toString)
  return verdict.told fun _ => .walkGaveUp b.walkSteps

/-! ## The walk springs no trap -/

/-- What is stored of a node of the walk. -/
def view (g : Grammar) (d : Direction) (w : Word) : Arena.View Node (Symbol × Nat) where
  place node := (node.state, position d node.read node.rest)
  lines node := node.path.map (Step.text Word.plain) ++ [g.start.toString]
  Valid node := d.orient w = node.read.reverse ++ node.rest

variable {g : Grammar} {node : Node} {arena : Arena (Symbol × Nat)} {discovered : List Node}
  {frontier : Frontier Node (Symbol × Nat)} {index : Nat}

theorem place_eq_iff (m n : Node) (hm : (view g d w).Valid m) (hn : (view g d w).Valid n) :
    (view g d w).place m = (view g d w).place n ↔ key m = key n := by
  have hm' := length_of_orient_eq hm
  have hn' := length_of_orient_eq hn
  simp only [view, key, Prod.mk.injEq]
  refine and_congr_right fun _ => ?_
  cases d with
  | right =>
    simp only [position]
    omega
  | left => rfl

/-- What trying some alternatives at a node comes to: the first one that ends the walk does so, and if there
is none then all places they lead to are offered. -/
def Tried (g : Grammar) (d : Direction) (w : Word) (discovered : List Node)
    (frontier : Frontier Node (Symbol × Nat)) (node : Node) (rs : List Word)
    (result : Checked (Arena (Symbol × Nat) ⊕ List String)) : Prop :=
  (∃ path, rs.findSome? (close? d node) = some path ∧
    result = .ok (.inr (derivationLines Word.plain g.start path.reverse))) ∨
  (rs.findSome? (close? d node) = none ∧ ∃ arena' discovered', result = .ok (.inl arena') ∧
    Arena.Follows (view g d w) key arena' discovered'
      ((rs.filterMap (advance? d node)).foldl (Frontier.offer key) frontier) ∧
    discovered <+: discovered')

theorem tried_skip {r : Word} (h : Arena.Follows (view g d w) key arena discovered frontier)
    (hclose : close? d node r = none) (hadvance : advance? d node r = none) :
    Tried g d w discovered frontier node [r] (.ok (.inl arena)) := by
  refine Or.inr ⟨by simp [hclose], arena, discovered, rfl, ?_, List.prefix_rfl⟩
  simpa [hadvance] using h

theorem tried_close {r : Word} {step : Step} (h : Arena.Follows (view g d w) key arena discovered frontier)
    (hnode : discovered[index]? = some node) (hclose : close? d node r = some (step :: node.path)) :
    Tried g d w discovered frontier node [r]
      (do return .inr (← arena.accept index [step.text Word.plain])) := by
  refine Or.inl ⟨step :: node.path, by simp [hclose], ?_⟩
  rw [h.accept hnode]
  simp [view, derivationLines]

theorem tried_nil (h : Arena.Follows (view g d w) key arena discovered frontier)
    (hnode : discovered[index]? = some node) :
    Tried g d w discovered frontier node [[]]
      (attempt ⟨w.toArray, d⟩ index node.state (position d node.read node.rest) arena []) := by
  have hvalid : d.orient w = node.read.reverse ++ node.rest := h.valid node (List.mem_of_getElem? hnode)
  have horient : d.orient [] = [] := by cases d <;> rfl
  unfold attempt
  simp only [position_eq_goal_iff hvalid]
  split
  · next hrest =>
    rw [form_eq hvalid, Checked.ok_bind]
    refine tried_close h hnode ?_
    simp [close?, hrest, horient]
  · next hrest =>
    obtain ⟨c, rest, hrest⟩ := List.exists_cons_of_ne_nil hrest
    refine tried_skip h ?_ ?_
    · simp [close?, hrest, horient]
    · simp [advance?, horient]

theorem tried_singleton {a : Symbol} (hw : w.length < wordLimit)
    (h : Arena.Follows (view g d w) key arena discovered frontier)
    (hnode : discovered[index]? = some node) :
    Tried g d w discovered frontier node [[a]]
      (attempt ⟨w.toArray, d⟩ index node.state (position d node.read node.rest) arena [a]) := by
  have hvalid : d.orient w = node.read.reverse ++ node.rest := h.valid node (List.mem_of_getElem? hnode)
  have hskip : ∀ rest', advance? d ⟨node.state, node.read, rest', node.path⟩ [a] = none := by
    intro rest'
    simp [advance?]
  unfold attempt
  rw [next_eq hvalid hw, Checked.ok_bind]
  obtain ⟨state, read, rest, path⟩ := node
  dsimp only at hvalid hskip ⊢
  cases rest with
  | nil => exact tried_skip h (by simp [close?]) (hskip [])
  | cons c rest =>
    have hread : d.orient w = (c :: read).reverse ++ rest := by simpa using hvalid
    simp only [List.head?_cons, Option.map_some, List.tail_cons, Checked.ok_bind,
      position_eq_goal_iff hread]
    split
    · next hfits =>
      obtain ⟨rfl, rfl⟩ := hfits
      rw [form_eq hread, Checked.ok_bind]
      exact tried_close h hnode (by simp [close?])
    · next hfits =>
      refine tried_skip h ?_ (hskip _)
      cases rest with
      | nil => simp_all [close?]
      | cons c' rest => simp [close?]

theorem tried_pair {r : Word} {a target : Symbol} (hw : w.length < wordLimit)
    (h : Arena.Follows (view g d w) key arena discovered frontier)
    (hnode : discovered[index]? = some node) (horient : d.orient r = [a, target]) :
    Tried g d w discovered frontier node [r]
      (attempt ⟨w.toArray, d⟩ index node.state (position d node.read node.rest) arena r) := by
  have hvalid : d.orient w = node.read.reverse ++ node.rest := h.valid node (List.mem_of_getElem? hnode)
  have hclose : close? d node r = none := by simp [close?, horient]
  -- Turned or not, a pair splits into the same terminal and nonterminal.
  obtain ⟨x, y, rfl⟩ : ∃ x y, r = [x, y] := by
    rw [← List.length_eq_two, ← d.length_orient r, horient]
    rfl
  have hsplit : Track.split ⟨w.toArray, d⟩ [x, y] = some (a, target) := by
    cases d with
    | right => simpa [Track.split, Direction.orient] using horient
    | left => simpa [Track.split, Direction.orient] using horient
  unfold attempt
  rw [next_eq hvalid hw, Checked.ok_bind, hsplit]
  obtain ⟨state, read, rest, path⟩ := node
  cases rest with
  | nil => exact tried_skip h hclose (by simp [advance?, horient])
  | cons c rest =>
    have hread : d.orient w = (c :: read).reverse ++ rest := by simpa using hvalid
    simp only [List.head?_cons, Option.map_some, List.tail_cons]
    split
    · next hfits =>
      -- The symbol is read, and the place behind it is stored unless it is known.
      subst hfits
      have hadvance : advance? d ⟨state, read, a :: rest, path⟩ [x, y] =
          some ⟨target, a :: read, rest,
            ⟨[state], [x, y], form d (a :: read) [target]⟩ :: path⟩ := by
        simp [advance?, horient]
      have hvalid' : (view g d w).Valid ⟨target, a :: read, rest,
          ⟨[state], [x, y], form d (a :: read) [target]⟩ :: path⟩ := hread
      obtain ⟨arena', discovered', hdiscover, hfollows, hprefix⟩ :=
        h.discover place_eq_iff hnode hvalid' rfl
      refine Or.inr ⟨by simp [hclose], arena', discovered', ?_, ?_, hprefix⟩
      · rw [form_eq hread]
        exact congrArg (· >>= fun arena => pure (Sum.inl arena)) hdiscover
      · simpa [hadvance] using hfollows
    · next hfits => exact tried_skip h hclose (by simp [advance?, horient, hfits])

theorem tried_long {x y z : Symbol} {more : Word} (hw : w.length < wordLimit)
    (h : Arena.Follows (view g d w) key arena discovered frontier)
    (hnode : discovered[index]? = some node) :
    Tried g d w discovered frontier node [x :: y :: z :: more]
      (attempt ⟨w.toArray, d⟩ index node.state (position d node.read node.rest) arena
        (x :: y :: z :: more)) := by
  have hvalid : d.orient w = node.read.reverse ++ node.rest := h.valid node (List.mem_of_getElem? hnode)
  have hsplit : Track.split ⟨w.toArray, d⟩ (x :: y :: z :: more) = none := by cases d <;> rfl
  obtain ⟨a, b, c, others, horient⟩ : ∃ a b c others, d.orient (x :: y :: z :: more) = a :: b :: c :: others := by
    have hlength := d.length_orient (x :: y :: z :: more)
    match d.orient (x :: y :: z :: more), hlength with
    | a :: b :: c :: others, _ => exact ⟨a, b, c, others, rfl⟩
  unfold attempt
  rw [next_eq hvalid hw, Checked.ok_bind, hsplit]
  exact tried_skip h (by simp [close?, horient]) (by simp [advance?, horient])

/-- Trying one alternative does what the walk does with it. -/
theorem tried_attempt (hw : w.length < wordLimit)
    (h : Arena.Follows (view g d w) key arena discovered frontier)
    (hnode : discovered[index]? = some node) (r : Word) :
    Tried g d w discovered frontier node [r]
      (attempt ⟨w.toArray, d⟩ index node.state (position d node.read node.rest) arena r) := by
  match r with
  | [] => exact tried_nil h hnode
  | [a] => exact tried_singleton hw h hnode
  | [x, y] =>
    cases d with
    | right => exact tried_pair hw h hnode rfl
    | left => exact tried_pair hw h hnode rfl
  | x :: y :: z :: more => exact tried_long hw h hnode

theorem tried_attemptAll (hw : w.length < wordLimit)
    (h : Arena.Follows (view g d w) key arena discovered frontier)
    (hnode : discovered[index]? = some node) (rs : List Word) :
    Tried g d w discovered frontier node rs
      (attemptAll ⟨w.toArray, d⟩ index node.state (position d node.read node.rest) rs arena) := by
  -- The alternatives tried so far have ended nothing, and what they led to has been offered.
  induction rs generalizing arena discovered frontier with
  | nil => exact Or.inr ⟨rfl, arena, discovered, rfl, h, List.prefix_rfl⟩
  | cons r rs ih =>
    have hfind : (r :: rs).findSome? (close? d node) =
        ([r].findSome? (close? d node)).or (rs.findSome? (close? d node)) := by
      rw [← List.singleton_append, List.findSome?_append]
    rw [attemptAll]
    rcases tried_attempt hw h hnode r with
      ⟨path, hclose, hresult⟩ | ⟨hclose, arena', discovered', hresult, hfollows, hprefix⟩
    · exact Or.inl ⟨path, by rw [hfind, hclose]; rfl, by rw [hresult]; rfl⟩
    rw [hclose, Option.none_or] at hfind
    rw [hresult, Checked.ok_bind]
    rcases ih hfollows (Arena.getElem?_of_isPrefix hprefix hnode) with
      ⟨path, hrest, hresult'⟩ | ⟨hrest, arena'', discovered'', hresult', hfollows', hprefix'⟩
    · exact Or.inl ⟨path, hfind.trans hrest, hresult'⟩
    · refine Or.inr ⟨hfind.trans hrest, arena'', discovered'', hresult', ?_, hprefix.trans hprefix'⟩
      rw [← List.foldl_append, ← List.filterMap_append] at hfollows'
      exact hfollows'

/-- **A visit by index** does what a visit of the walk does. -/
theorem visits_visit (hw : w.length < wordLimit) :
    Arena.Visits (view g d w) key (fun _ => True) (moves g d) (finish? g d)
      (derivationLines Word.plain g.start) (visit g ⟨w.toArray, d⟩) := by
  intro arena discovered frontier index node h hnode _
  obtain ⟨entry, hentry, hplace⟩ := h.entry index node hnode
  have hstate : entry.place.1 = node.state := by rw [hplace]; rfl
  have hposition : entry.place.2 = position d node.read node.rest := by rw [hplace]; rfl
  unfold visit
  rw [Checked.get_eq_ok hentry, Checked.ok_bind, hstate, hposition]
  rcases tried_attemptAll hw h hnode (g.alternatives node.state) with
    ⟨path, hclose, hresult⟩ | ⟨hclose, arena', discovered', hresult, hfollows, -⟩
  · exact Or.inl ⟨path.reverse, by rw [finish?, hclose]; rfl, hresult⟩
  · exact Or.inr ⟨by rw [finish?, hclose]; rfl, arena', discovered', hresult, hfollows⟩

/-- **The walk over stored places** gives the answer of the walk, and every look-up, cut and sum on the way is
in range. -/
theorem storedAnswer_eq {b : Budget} (hsteps : b.walkSteps < wordLimit) (hw : w.length < wordLimit) :
    storedAnswer g b w = .ok (answer g b w) := by
  have horigin : ∀ d : Direction, (view g d w).place (origin g d w) =
      (g.start, Track.origin ⟨w.toArray, d⟩) := by
    intro d
    cases d <;> simp [view, origin, position, Track.origin, Direction.orient]
  have hrun : ∀ d : Direction, Arena.run (visit g ⟨w.toArray, d⟩) (fun n => return n + 1) b.walkSteps
      (b.walkSteps + 1) 0 (Arena.start (g.start, Track.origin ⟨w.toArray, d⟩) g.start.toString) =
      .ok ((search g d b.walkSteps w).map (derivationLines Word.plain g.start)) := by
    intro d
    have hvalid : (view g d w).Valid (origin g d w) := rfl
    rw [← horigin d]
    exact Arena.run_eq_search place_eq_iff (visits_visit hw) hsteps hvalid rfl
      (fun _ _ _ _ => trivial) (fun _ _ => rfl)
  unfold storedAnswer answer
  dsimp only
  rw [hrun, Checked.ok_bind, Verdict.told_map]
  rfl

end LinearWalk

/-! ## Texts by bytes -/

/-- How many bytes a word takes up as a text. -/
def Word.bytes (w : Word) : Nat :=
  (w.map Char.utf8Size).sum

@[simp]
theorem Word.bytes_nil : Word.bytes [] = 0 := rfl

@[simp]
theorem Word.bytes_cons (c : Symbol) (w : Word) : Word.bytes (c :: w) = c.utf8Size + Word.bytes w := by
  rw [Word.bytes, List.map_cons, List.sum_cons, Word.bytes]

@[simp]
theorem Word.bytes_append (v w : Word) : Word.bytes (v ++ w) = Word.bytes v + Word.bytes w := by
  rw [Word.bytes, List.map_append, List.sum_append, Word.bytes, Word.bytes]

/-- What stands in front of an offset, which has to lie between two symbols. -/
def cutBefore : Word → Nat → Checked Word
  | _, 0 => return []
  | [], _ + 1 => .error .slice
  | c :: w, offset =>
    if c.utf8Size ≤ offset then
      return c :: (← cutBefore w (offset - c.utf8Size))
    else
      .error .slice

/-- What stands behind an offset, which has to lie between two symbols. -/
def cutBehind : Word → Nat → Checked Word
  | w, 0 => return w
  | [], _ + 1 => .error .slice
  | c :: w, offset =>
    if c.utf8Size ≤ offset then cutBehind w (offset - c.utf8Size) else .error .slice

theorem cutBefore_cons {c : Symbol} {w : Word} {offset : Nat} (h : c.utf8Size ≤ offset) :
    cutBefore (c :: w) offset = do return c :: (← cutBefore w (offset - c.utf8Size)) := by
  have hpos := c.utf8Size_pos
  rw [cutBefore.eq_def]
  cases offset with
  | zero => omega
  | succ offset => exact if_pos h

theorem cutBehind_cons {c : Symbol} {w : Word} {offset : Nat} (h : c.utf8Size ≤ offset) :
    cutBehind (c :: w) offset = cutBehind w (offset - c.utf8Size) := by
  have hpos := c.utf8Size_pos
  rw [cutBehind.eq_def]
  cases offset with
  | zero => omega
  | succ offset => exact if_pos h

/-- The bytes of a prefix are an offset between two symbols. -/
theorem cutBefore_bytes (u v : Word) : cutBefore (u ++ v) u.bytes = .ok u := by
  induction u with
  | nil => cases v <;> rfl
  | cons c u ih =>
    rw [Word.bytes_cons, List.cons_append, cutBefore_cons (Nat.le_add_right _ _),
      Nat.add_sub_cancel_left, ih]
    rfl

theorem cutBehind_bytes (u v : Word) : cutBehind (u ++ v) u.bytes = .ok v := by
  induction u with
  | nil => cases v <;> rfl
  | cons c u ih =>
    rw [Word.bytes_cons, List.cons_append, cutBehind_cons (Nat.le_add_right _ _),
      Nat.add_sub_cancel_left, ih]

/-- The offsets of the symbols of a word that itself stands at an offset. -/
def offsets : Word → Nat → List Nat
  | [], _ => []
  | c :: w, offset => offset :: offsets w (offset + c.utf8Size)

/-- The ways to find a word at some offsets of a form: what stands before and after it. -/
def occurrences (left form : Word) : List Nat → Checked (List (Word × Word))
  | [] => return []
  | offset :: others => do
    let here ← cutBehind form offset
    if left.isPrefixOf here then
      let before ← cutBefore form offset
      let stop ← Checked.add offset left.bytes
      let after ← cutBehind form stop
      return (before, after) :: (← occurrences left form others)
    else
      occurrences left form others

/-- **Every cut is between two symbols**: each offset is the number of bytes of what stands before, and behind
an occurrence the same holds with the left side added. -/
theorem occurrences_eq (left u w : Word) (hbytes : (u ++ w).bytes < wordLimit) :
    occurrences left (u ++ w) (offsets w u.bytes) =
      .ok ((splits left w).map fun (before, after) => (u ++ before, after)) := by
  -- The induction moves symbols from the rest of the form to the part that was passed.
  induction w generalizing u with
  | nil => rfl
  | cons c w ih =>
    have hshift : u ++ c :: w = (u ++ [c]) ++ w := by simp
    have hoffset : u.bytes + c.utf8Size = (u ++ [c]).bytes := by simp
    have hothers := ih (u ++ [c]) (by rwa [← hshift])
    rw [← hshift, ← hoffset] at hothers
    rw [offsets, occurrences, cutBehind_bytes, Checked.ok_bind, hothers, splits]
    cases hstrip : stripFront left (c :: w) with
    | none =>
      -- The left side does not stand here.
      have hnot : ¬ left.isPrefixOf (c :: w) = true := by
        rw [List.isPrefixOf_iff_prefix]
        rintro ⟨rest, hrest⟩
        rw [stripFront_eq_some_iff.mpr hrest.symm] at hstrip
        cases hstrip
      rw [if_neg hnot]
      simp [Function.comp_def]
    | some rest =>
      -- It does, and what follows it is cut off at the offset of this place and of its own bytes together.
      have hform : c :: w = left ++ rest := stripFront_eq_some_iff.mp hstrip
      rw [hform] at hbytes ⊢
      rw [Word.bytes_append, Word.bytes_append] at hbytes
      have hbehind := cutBehind_bytes (u ++ left) rest
      rw [List.append_assoc, Word.bytes_append] at hbehind
      rw [if_pos (List.isPrefixOf_iff_prefix.mpr (List.prefix_append left rest)), cutBefore_bytes,
        Checked.ok_bind, Checked.add_eq_ok (by omega), Checked.ok_bind, hbehind, Checked.ok_bind,
        Checked.ok_bind]
      simp [Function.comp_def]

/-- The longest admissible length of forms, computed in 64 bits. -/
def Budget.storedCap (b : Budget) (n : Nat) : Checked Nat := do
  let product ← Checked.mul b.lengthFactor n
  let sum ← Checked.add product b.lengthSlack
  return max sum b.lengthFloor

theorem Budget.storedCap_eq (b : Budget) (n : Nat) :
    b.storedCap n = (b.lengthCap n).mapError .overflow := by
  unfold storedCap lengthCap Checked.mul
  rcases Nat.lt_or_ge (b.lengthFactor * n) wordLimit with hproduct | hproduct
  · rw [if_pos hproduct, if_neg (Nat.not_le.mpr hproduct), Checked.ok_bind, Checked.add]
    rcases Nat.lt_or_ge (b.lengthFactor * n + b.lengthSlack) wordLimit with hsum | hsum
    · rw [if_pos hsum, if_neg (Nat.not_le.mpr hsum)]
      rfl
    · rw [if_neg (Nat.not_lt.mpr hsum), if_pos hsum]
      rfl
  · rw [if_neg (Nat.not_lt.mpr hproduct), if_pos hproduct]
    rfl

namespace FormSearch

variable {g : Grammar} {cap : Nat} {target : Word}

/-- All steps out of a form by some productions, found by offsets. -/
def stepsBy (form : Word) : List Production → Checked (List Step)
  | [] => return []
  | p :: ps => do
    let found ← occurrences p.left form (offsets form 0)
    let others ← stepsBy form ps
    return (found.flatMap fun (before, after) =>
      p.alternatives.map fun r => ⟨p.left, r, before ++ r ++ after⟩) ++ others

theorem stepsBy_eq {form : Word} (hbytes : form.bytes < wordLimit) (ps : List Production) :
    stepsBy form ps = .ok (ps.flatMap fun p => (splits p.left form).flatMap fun (before, after) =>
      p.alternatives.map fun r => ⟨p.left, r, before ++ r ++ after⟩) := by
  induction ps with
  | nil => rfl
  | cons p ps ih =>
    have hfound := occurrences_eq p.left [] form hbytes
    simp only [List.nil_append, Word.bytes_nil, List.map_id'] at hfound
    rw [stepsBy, hfound, Checked.ok_bind, ih]
    rfl

/-- Visits the form at an index: it is the target, or the forms one step away that fit the cap are stored. -/
def visit (g : Grammar) (cap : Nat) (target : Word) (arena : Arena Word) (index : Nat) :
    Checked (Arena Word ⊕ List String) := do
  let entry ← Checked.get arena.nodes index
  if entry.place = target then
    return .inr (← arena.accept index [])
  else
    let steps ← stepsBy entry.place g.productions
    return .inl (← (steps.filter fun s => s.form.length ≤ cap).foldlM
      (fun arena s => arena.discover index s.form (.ok (s.text Word.shown))) arena)

/-- The longest form kept on the way to a target of `n` symbols, computed in 64 bits. -/
def storedCap (g : Grammar) (b : Budget) (n : Nat) : Checked Nat := do
  let cap ← b.storedCap n
  return match g.level with
    | .contextSensitive => min cap (max n 1)
    | _ => cap

theorem storedCap_eq (g : Grammar) (b : Budget) (n : Nat) :
    storedCap g b n = (FormSearch.cap g b n).mapError .overflow := by
  unfold storedCap FormSearch.cap
  rw [Budget.storedCap_eq]
  cases b.lengthCap n with
  | error overflow => cases g.level <;> rfl
  | ok cap => cases g.level <;> rfl

/-- The answer of the search over stored forms. -/
def storedAnswer (g : Grammar) (b : Budget) (target : Word) : Checked Answer := do
  let cap ← storedCap g b target.length
  let verdict ← Arena.run (visit g cap target) (Checked.add · 1) b.searchSteps (b.searchSteps + 1) 0
    (Arena.start [g.start] g.start.toString)
  return verdict.told (.searchGaveUp b.searchSteps)

/-! ## The search springs no trap -/

/-- What is stored of a form of the search. -/
def view (g : Grammar) : Arena.View Node Word where
  place := Node.form
  lines node := node.path.map (Step.text Word.shown) ++ [g.start.toString]
  Valid _ := True

variable {arena : Arena Word} {discovered : List Node} {frontier : Frontier Node Word} {index : Nat}
  {node : Node}

theorem exists_foldlM_discover (h : Arena.Follows (view g) Node.form arena discovered frontier)
    (hnode : discovered[index]? = some node) (steps : List Step) :
    ∃ arena' discovered', steps.foldlM
        (fun arena s => arena.discover index s.form (.ok (s.text Word.shown))) arena = .ok arena' ∧
      Arena.Follows (view g) Node.form arena' discovered'
        ((steps.map fun s => ⟨s.form, s :: node.path⟩).foldl (Frontier.offer Node.form) frontier) := by
  induction steps generalizing arena discovered frontier with
  | nil => exact ⟨arena, discovered, rfl, h⟩
  | cons s steps ih =>
    have hvalid : (view g).Valid ⟨s.form, s :: node.path⟩ := trivial
    obtain ⟨arena', discovered', hdiscover, hfollows, hprefix⟩ :=
      h.discover (fun _ _ _ _ => Iff.rfl) hnode hvalid rfl
    obtain ⟨arena'', discovered'', hrest, hfollows'⟩ :=
      ih hfollows (Arena.getElem?_of_isPrefix hprefix hnode)
    refine ⟨arena'', discovered'', ?_, hfollows'⟩
    rw [List.foldlM_cons]
    exact (congrArg (· >>= _) hdiscover).trans hrest

/-- **A visit by index** of a form whose bytes can be counted does what a visit of the search does. -/
theorem visits_visit : Arena.Visits (view g) Node.form (fun node => node.form.bytes < wordLimit) (moves g cap)
    (finish? target) (derivationLines Word.shown g.start) (visit g cap target) := by
  intro arena discovered frontier index node h hnode hbytes
  obtain ⟨entry, hentry, hplace⟩ := h.entry index node hnode
  have hform : entry.place = node.form := hplace
  unfold visit finish?
  rw [Checked.get_eq_ok hentry, Checked.ok_bind, hform]
  split
  · refine Or.inl ⟨node.path.reverse, rfl, ?_⟩
    rw [h.accept hnode]
    simp [view, derivationLines]
  · refine Or.inr ⟨rfl, ?_⟩
    obtain ⟨arena', discovered', hresult, hfollows⟩ := exists_foldlM_discover h hnode
      ((g.successors node.form).filter fun s => s.form.length ≤ cap)
    refine ⟨arena', discovered', ?_, hfollows⟩
    rw [stepsBy_eq hbytes, Checked.ok_bind]
    exact congrArg (· >>= fun arena => pure (Sum.inl arena)) hresult

/-- The forms that wait after some steps of the search. -/
def waitingAfter (g : Grammar) (cap : Nat) (target : Word) (steps : Nat) : List Node :=
  Frontier.waitingAfter Node.form (moves g cap) (finish? target) (.singleton Node.form ⟨[g.start], []⟩) steps

/-- **The search over stored forms** gives the answer of the search, overflows of the cap included; every
other look-up, cut and sum is in range.  The forms that wait and their list are objects in memory, so that their
sizes are numbers of 64 bits. -/
theorem storedAnswer_eq {b : Budget} (hsteps : b.searchSteps < wordLimit)
    (hforms : ∀ cap, FormSearch.cap g b target.length = .ok cap → ∀ k ≤ b.searchSteps,
      (waitingAfter g cap target k).length < wordLimit ∧
        ∀ node ∈ waitingAfter g cap target k, node.form.bytes < wordLimit) :
    storedAnswer g b target = (answer g b target).mapError .overflow := by
  unfold storedAnswer answer
  rw [storedCap_eq]
  cases hcap : FormSearch.cap g b target.length with
  | error overflow => rfl
  | ok cap =>
    have hvalid : (view g).Valid ⟨[g.start], []⟩ := trivial
    have hrun : Arena.run (visit g cap target) (Checked.add · 1) b.searchSteps (b.searchSteps + 1) 0
        (Arena.start [g.start] g.start.toString) =
        .ok ((search g cap b.searchSteps target).map (derivationLines Word.shown g.start)) := by
      refine Arena.run_eq_search (fun _ _ _ _ => Iff.rfl) visits_visit hsteps hvalid rfl
        (fun k hk => (hforms cap hcap k (Nat.le_of_lt hk)).2) ?_
      intro n hn
      exact Checked.add_eq_ok (hn.symm.trans_lt (hforms cap hcap b.searchSteps (Nat.le_refl _)).1)
    show (Arena.run _ _ _ _ _ _ >>= _) = _
    rw [hrun, Checked.ok_bind, Verdict.told_map]
    rfl

end FormSearch

end PhraseStructure
