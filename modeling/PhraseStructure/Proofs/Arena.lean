import PhraseStructure.Proofs.Ceilings

/-!
# Searches that refer to nodes by their indices

The searches of this library carry each node around as a whole.  A machine stores the nodes of a search in
an array, in order of discovery, and refers to them by their indices: the queue holds indices, and each
node remembers the index of the node it was discovered from.  It counts in words of 64 bits.  There a look-up
can miss, a sum can be too large, and the chain from a node back to the first one could run in circles.

This module gives such a search, in which everything that can go wrong is a `Trap`, and shows that it follows
`Frontier.explore` step by step without springing any: `Arena.Follows` relates the two, storing a node keeps
the relation (`Arena.Follows.discover`), and so does a whole run (`Arena.Follows.run`).

## Main definitions

* `Trap`, `Checked`: what can go wrong, and work that may.
* `Checked.add`, `Checked.mul`, `Checked.sub`, `Checked.get`: operations that are in range or trap.
* `Arena`, `Arena.run`: a search over stored nodes.
* `Arena.Told`: the lines along the chain from a node to the first one.
* `Arena.Follows`: an arena that holds what an exploration has discovered.
-/

namespace PhraseStructure

/-- A verdict with what was found put in another form. -/
def Verdict.map {σ τ : Type} (f : σ → τ) : Verdict σ → Verdict τ
  | .found result => .found (f result)
  | .exhausted => .exhausted
  | .gaveUp waiting => .gaveUp waiting

namespace Frontier

variable {ν κ τ : Type} [BEq κ] [Hashable κ]

/-- The nodes that wait after some steps of a search. -/
def waitingAfter (key : ν → κ) (expand : ν → List ν) (goal : ν → Option τ) (frontier : Frontier ν κ)
    (steps : Nat) : List ν :=
  (explore key expand (fun _ node => goal node) Option.isSome steps none frontier).2.2.toList

/-- A step that does not reach the goal is the first of all steps that follow. -/
theorem waitingAfter_succ {key : ν → κ} {expand : ν → List ν} {goal : ν → Option τ}
    {frontier rest : Frontier ν κ} {node : ν} (hpop : frontier.pop? = some (node, rest))
    (hgoal : goal node = none) (steps : Nat) :
    waitingAfter key expand goal frontier (steps + 1) =
      waitingAfter key expand goal ((expand node).foldl (offer key) rest) steps := by
  rw [waitingAfter, explore, hpop, if_neg (by simp)]
  dsimp only
  rw [hgoal, waitingAfter]

/-- How a search ends with what it has found, if anything, and the nodes that still wait. -/
def verdict : Option τ → List ν → Verdict τ
  | some result, _ => .found result
  | none, [] => .exhausted
  | none, waiting => .gaveUp waiting.length

theorem search_eq_verdict (key : ν → κ) (expand : ν → List ν) (goal : ν → Option τ) (steps : Nat)
    (root : ν) {left : Nat} {result : Option τ} {final : Frontier ν κ}
    (hrun : explore key expand (fun _ node => goal node) Option.isSome steps none
      (singleton key root) = (left, result, final)) :
    search key expand goal steps root = verdict result final.toList := by
  rw [search, hrun]
  cases result with
  | some result => rfl
  | none =>
    dsimp only
    cases final.toList <;> rfl

end Frontier

/-- What stops a machine. -/
inductive Trap where
  /-- A result needs more than 64 bits. -/
  | overflow (operation : Overflow)
  /-- A difference is below zero. -/
  | underflow
  /-- There is nothing at an index. -/
  | index
  /-- A word is cut behind its end, or within a symbol. -/
  | slice
  /-- There is no end to it. -/
  | endless
deriving DecidableEq, Repr

/-- Work that may be stopped by a trap. -/
abbrev Checked := Except Trap

namespace Checked

variable {α β : Type}

/-- A sum that fits into 64 bits. -/
def add (a b : Nat) : Checked Nat :=
  if a + b < wordLimit then .ok (a + b) else .error (.overflow .add)

/-- A product that fits into 64 bits. -/
def mul (a b : Nat) : Checked Nat :=
  if a * b < wordLimit then .ok (a * b) else .error (.overflow .multiply)

/-- A difference that is not below zero. -/
def sub (a b : Nat) : Checked Nat :=
  if b ≤ a then .ok (a - b) else .error .underflow

/-- The element at an index that is in range. -/
def get (xs : Array α) (i : Nat) : Checked α :=
  match xs[i]? with
  | some x => .ok x
  | none => .error .index

@[simp]
theorem ok_bind (a : α) (f : α → Checked β) : (Except.ok a >>= f) = f a := rfl

@[simp]
theorem pure_eq (a : α) : (pure a : Checked α) = .ok a := rfl

theorem add_eq_ok {a b : Nat} (h : a + b < wordLimit) : add a b = .ok (a + b) :=
  if_pos h

theorem sub_eq_ok {a b : Nat} (h : b ≤ a) : sub a b = .ok (a - b) :=
  if_pos h

theorem get_eq_ok {xs : Array α} {i : Nat} {x : α} (h : xs[i]? = some x) : get xs i = .ok x := by
  rw [get, h]

end Checked

/-- A stored node: where it stands, the node from which it was discovered, and the line that tells how. -/
structure Arena.Entry (π : Type) where
  /-- Where the node stands. -/
  place : π
  /-- The index of the node from which it was discovered. -/
  parent : Option Nat
  /-- How it was discovered. -/
  line : String

/-! ## Chains -/

namespace Arena

section Chains

variable {π : Type}

/-- The lines along the chain from a node to the first one; `rounds` bounds the length of the chain. -/
def lines (nodes : Array (Entry π)) : Nat → Option Nat → Checked (List String)
  | _, none => .ok []
  | 0, some _ => .error .endless
  | rounds + 1, some index => do
    let entry ← Checked.get nodes index
    let others ← lines nodes rounds entry.parent
    return entry.line :: others

/-- The lines along the chain from a node to the first one.  A node is discovered from one that was stored
before it, so the chain comes to an end. -/
inductive Told (nodes : Array (Entry π)) : Nat → List String → Prop where
  | first {i : Nat} {entry : Entry π} : nodes[i]? = some entry → entry.parent = none →
      Told nodes i [entry.line]
  | next {i j : Nat} {entry : Entry π} {others : List String} : nodes[i]? = some entry →
      entry.parent = some j → j < i → Told nodes j others → Told nodes i (entry.line :: others)

theorem lines_none (nodes : Array (Entry π)) (rounds : Nat) :
    Arena.lines nodes rounds none = .ok [] := by
  cases rounds <;> rfl

theorem Told.lines {nodes : Array (Entry π)} {i : Nat} {told : List String} (h : Told nodes i told)
    {rounds : Nat} (hrounds : i < rounds) : Arena.lines nodes rounds (some i) = .ok told := by
  induction h generalizing rounds with
  | first hentry hparent =>
    obtain ⟨rounds, rfl⟩ := Nat.exists_eq_succ_of_ne_zero (Nat.ne_of_gt (Nat.zero_lt_of_lt hrounds))
    rw [Arena.lines, Checked.get_eq_ok hentry, Checked.ok_bind, hparent, lines_none]
    rfl
  | next hentry hparent hlt _ ih =>
    obtain ⟨rounds, rfl⟩ := Nat.exists_eq_succ_of_ne_zero (Nat.ne_of_gt (Nat.zero_lt_of_lt hrounds))
    rw [Arena.lines, Checked.get_eq_ok hentry, Checked.ok_bind, hparent, ih (by omega)]
    rfl

/-- Chains stay as they are when nodes are stored behind them. -/
theorem Told.push {nodes : Array (Entry π)} {i : Nat} {told : List String} (h : Told nodes i told)
    (entry : Entry π) : Told (nodes.push entry) i told := by
  -- What is stored keeps its index.
  have hkeep : ∀ {i : Nat} {x : Entry π}, nodes[i]? = some x → (nodes.push entry)[i]? = some x := by
    intro i x hx
    have hlt := (Array.getElem?_eq_some_iff.mp hx).1
    rw [Array.getElem?_push_lt hlt, ← hx, Array.getElem?_eq_getElem hlt]
  induction h with
  | first hentry hparent => exact .first (hkeep hentry) hparent
  | next hentry hparent hlt _ ih => exact .next (hkeep hentry) hparent hlt ih

end Chains

end Arena

/-! ## Arenas -/

/-- The nodes of a search in order of discovery, the indices of those that wait, and the places discovered so
far. -/
structure Arena (π : Type) [BEq π] [Hashable π] where
  /-- All nodes in order of discovery. -/
  nodes : Array (Arena.Entry π)
  /-- The indices of the nodes that wait, the one that has waited longest first. -/
  queue : List Nat
  /-- All places discovered so far. -/
  visited : Std.HashSet π

namespace Arena

variable {π : Type} [BEq π] [Hashable π]

/-- The arena of a search that has discovered a single node. -/
def start (place : π) (line : String) : Arena π where
  nodes := #[⟨place, none, line⟩]
  queue := [0]
  visited := (∅ : Std.HashSet π).insert place

/-- Stores a node behind all others and lets it wait. -/
def store (arena : Arena π) (entry : Entry π) : Checked (Arena π) := do
  let nodes := arena.nodes.push entry
  let index ← Checked.sub nodes.size 1
  return { arena with nodes, queue := arena.queue ++ [index] }

/-- Stores a node, unless its place is known. -/
def discover (arena : Arena π) (parent : Nat) (place : π) (line : Checked String) :
    Checked (Arena π) :=
  if arena.visited.contains place then
    .ok arena
  else do
    let line ← line
    { arena with visited := arena.visited.insert place }.store ⟨place, some parent, line⟩

/-- The derivation that ends at a node with some more lines, the last one first. -/
def accept (arena : Arena π) (index : Nat) (more : List String) : Checked (List String) := do
  let others ← lines arena.nodes arena.nodes.size (some index)
  return (more ++ others).reverse

/-- Visits waiting nodes until the ceiling is reached, nothing waits, or a visit ends the search.  `visit` is
given the index of the node, and `report` the number of nodes that wait behind it when the search gives up. -/
def run (visit : Arena π → Nat → Checked (Arena π ⊕ List String)) (report : Nat → Checked Nat)
    (ceiling : Nat) : Nat → Nat → Arena π → Checked (Verdict (List String))
  | 0, _, _ => .error .endless
  | rounds + 1, steps, arena =>
    match arena.queue with
    | [] => .ok .exhausted
    | index :: queue =>
      if ceiling ≤ steps then do
        let waiting ← report queue.length
        return .gaveUp waiting
      else do
        let steps ← Checked.add steps 1
        match ← visit { arena with queue } index with
        | .inr found => return .found found
        | .inl arena => run visit report ceiling rounds steps arena

/-! ## Following an exploration -/

variable {ν κ τ : Type} [BEq κ] [Hashable κ]

/-- What an arena stores of a node: its place and the lines that tell how it was reached, the last one first.
Only valid nodes come up. -/
structure View (ν π : Type) where
  /-- Where a node stands. -/
  place : ν → π
  /-- How it was reached. -/
  lines : ν → List String
  /-- Does the node belong to the search? -/
  Valid : ν → Prop

variable {view : View ν π} {key : ν → κ} {arena : Arena π} {discovered : List ν}
  {frontier : Frontier ν κ}

/-- The arena holds the nodes that were discovered, and those at the end wait. -/
structure Follows (view : View ν π) (key : ν → κ) (arena : Arena π) (discovered : List ν)
    (frontier : Frontier ν κ) : Prop where
  size : arena.nodes.size = discovered.length
  entry : ∀ (i : Nat) (node : ν), discovered[i]? = some node →
    ∃ entry, arena.nodes[i]? = some entry ∧ entry.place = view.place node
  told : ∀ (i : Nat) (node : ν), discovered[i]? = some node → Told arena.nodes i (view.lines node)
  waiting : ∃ k ≤ discovered.length, frontier.toList = discovered.drop k ∧
    arena.queue = List.range' k (discovered.length - k)
  visited : ∀ node, view.Valid node →
    arena.visited.contains (view.place node) = frontier.seen.contains (key node)
  valid : ∀ node ∈ discovered, view.Valid node

theorem Follows.accept (h : Follows view key arena discovered frontier) {index : Nat} {node : ν}
    (hnode : discovered[index]? = some node) (more : List String) :
    arena.accept index more = .ok (more ++ view.lines node).reverse := by
  have hlt : index < arena.nodes.size := by
    rw [h.size]
    exact (List.getElem?_eq_some_iff.mp hnode).1
  rw [Arena.accept, (h.told index node hnode).lines hlt, Checked.ok_bind, Checked.pure_eq]

theorem Follows.queue_eq_nil (h : Follows view key arena discovered frontier)
    (hpop : frontier.pop? = none) : arena.queue = [] := by
  obtain ⟨k, hk, hdrop, hqueue⟩ := h.waiting
  rw [Frontier.toList_of_pop?_eq_none hpop] at hdrop
  have hge := List.drop_eq_nil_iff.mp hdrop.symm
  rw [hqueue, show discovered.length - k = 0 by omega, List.range'_zero]

/-- The node that has waited longest is the one whose index stands first in the queue. -/
theorem Follows.pop (h : Follows view key arena discovered frontier) {node : ν}
    {rest : Frontier ν κ} (hpop : frontier.pop? = some (node, rest)) :
    ∃ index queue, arena.queue = index :: queue ∧ discovered[index]? = some node ∧
      queue.length = rest.toList.length ∧
      Follows view key { arena with queue } discovered rest := by
  obtain ⟨k, -, hdrop, hqueue⟩ := h.waiting
  rw [Frontier.toList_of_pop? hpop] at hdrop
  -- The nodes from `k` on wait, so `k` is in range and stands first in the queue.
  have hlt : k < discovered.length := by
    refine Nat.lt_of_not_le fun hge => ?_
    rw [List.drop_eq_nil_of_le hge] at hdrop
    cases hdrop
  rw [List.drop_eq_getElem_cons hlt, List.cons.injEq] at hdrop
  have hsub : discovered.length - k = discovered.length - (k + 1) + 1 := by omega
  refine ⟨k, List.range' (k + 1) (discovered.length - (k + 1)), ?_, ?_, ?_, ?_⟩
  · rw [hqueue, hsub, List.range'_succ]
  · rw [List.getElem?_eq_getElem hlt, hdrop.1]
  · rw [List.length_range', hdrop.2, List.length_drop]
  · refine ⟨h.size, h.entry, h.told, ⟨k + 1, hlt, hdrop.2, rfl⟩, ?_, h.valid⟩
    rw [Frontier.seen_of_pop? hpop]
    exact h.visited

theorem getElem?_of_isPrefix {xs ys : List ν} (h : xs <+: ys) {i : Nat} {x : ν}
    (hx : xs[i]? = some x) : ys[i]? = some x := by
  obtain ⟨zs, rfl⟩ := h
  rw [List.getElem?_append_left (List.getElem?_eq_some_iff.mp hx).1, hx]

section Lawful

variable [LawfulBEq π] [LawfulBEq κ]

/-- **Storing a node** is offering it: the new node waits behind all others, and its chain goes on with that of
the node from which it was discovered. -/
theorem Follows.discover
    (hkey : ∀ m n, view.Valid m → view.Valid n → (view.place m = view.place n ↔ key m = key n))
    (h : Follows view key arena discovered frontier) {parent : Nat} {origin node : ν}
    (hparent : discovered[parent]? = some origin) (hvalid : view.Valid node) {line : String}
    (hlines : view.lines node = line :: view.lines origin) :
    ∃ arena' discovered', arena.discover parent (view.place node) (.ok line) = .ok arena' ∧
      Follows view key arena' discovered' (frontier.offer key node) ∧ discovered <+: discovered' := by
  unfold Arena.discover Frontier.offer
  rw [h.visited node hvalid]
  split
  · exact ⟨arena, discovered, rfl, h, List.prefix_rfl⟩
  -- The place is new, and the node gets the first index that is free.
  have hlt : parent < discovered.length := (List.getElem?_eq_some_iff.mp hparent).1
  refine ⟨⟨arena.nodes.push ⟨view.place node, some parent, line⟩, arena.queue ++ [discovered.length],
    arena.visited.insert (view.place node)⟩, discovered ++ [node], ?_, ?_, List.prefix_append _ _⟩
  · simp [store, Checked.sub, h.size]
  -- What now stands at an index stood there before, or is the new node at the last one.
  have hpush : ∀ i n, (discovered ++ [node])[i]? = some n →
      discovered[i]? = some n ∨ (i = discovered.length ∧ n = node) := by
    intro i n hn
    rcases Nat.lt_trichotomy i discovered.length with hi | rfl | hi
    · rw [List.getElem?_append_left hi] at hn
      exact Or.inl hn
    · rw [List.getElem?_concat_length, Option.some.injEq] at hn
      exact Or.inr ⟨rfl, hn.symm⟩
    · rw [List.getElem?_eq_none (by simp; omega)] at hn
      cases hn
  have hlast : (arena.nodes.push ⟨view.place node, some parent, line⟩)[discovered.length]? =
      some ⟨view.place node, some parent, line⟩ := by
    rw [← h.size, Array.getElem?_push_size]
  refine ⟨?_, ?_, ?_, ?_, ?_, ?_⟩
  · simp [h.size]
  · intro i n hn
    rcases hpush i n hn with hold | ⟨rfl, rfl⟩
    · obtain ⟨entry, hentry, hplace⟩ := h.entry i n hold
      have hi := (Array.getElem?_eq_some_iff.mp hentry).1
      refine ⟨entry, ?_, hplace⟩
      rw [Array.getElem?_push_lt hi, ← hentry, Array.getElem?_eq_getElem hi]
    · exact ⟨_, hlast, rfl⟩
  · intro i n hn
    rcases hpush i n hn with hold | ⟨rfl, rfl⟩
    · exact (h.told i n hold).push _
    · rw [hlines]
      exact .next hlast rfl hlt ((h.told parent origin hparent).push _)
  · obtain ⟨k, hk, hdrop, hqueue⟩ := h.waiting
    refine ⟨k, by simp; omega, ?_, ?_⟩
    · rw [List.drop_append_of_le_length hk, ← hdrop]
      simp [Frontier.toList]
    · have hsub : (discovered ++ [node]).length - k = discovered.length - k + 1 := by
        simp
        omega
      rw [hqueue, hsub, List.range'_concat]
      simp
      omega
  · intro n hn
    have hbeq : (view.place node == view.place n) = (key node == key n) :=
      beq_eq_beq.mpr (hkey node n hvalid hn)
    rw [Std.HashSet.contains_insert, Std.HashSet.contains_insert, h.visited n hn, hbeq]
  · intro n hn
    rcases List.mem_append.mp hn with hn | hn
    · exact h.valid n hn
    · rw [List.mem_singleton.mp hn]
      exact hvalid

end Lawful

/-! ## A whole run -/

/-- What a visit of a node that fits has to do: end the search where the exploration has its goal, and otherwise
store the nodes that the exploration is offered. -/
def Visits (view : View ν π) (key : ν → κ) (Fits : ν → Prop) (expand : ν → List ν) (goal : ν → Option τ)
    (answer : τ → List String) (visit : Arena π → Nat → Checked (Arena π ⊕ List String)) : Prop :=
  ∀ {arena : Arena π} {discovered : List ν} {frontier : Frontier ν κ} {index : Nat} {node : ν},
    Follows view key arena discovered frontier → discovered[index]? = some node → Fits node →
      (∃ found, goal node = some found ∧ visit arena index = .ok (.inr (answer found))) ∨
      (goal node = none ∧ ∃ arena' discovered', visit arena index = .ok (.inl arena') ∧
        Follows view key arena' discovered' ((expand node).foldl (Frontier.offer key) frontier))

variable {Fits : ν → Prop} {expand : ν → List ν} {goal : ν → Option τ} {answer : τ → List String}
  {visit : Arena π → Nat → Checked (Arena π ⊕ List String)} {report : Nat → Checked Nat}

/-- **A run springs no trap** and ends as the exploration does.  Each round uses up a step, so that the rounds
suffice, and the steps are counted in 64 bits because their ceiling is. -/
theorem Follows.run (hvisit : Visits view key Fits expand goal answer visit) {ceiling : Nat}
    (hceiling : ceiling < wordLimit) {rounds steps left : Nat} (hrounds : left < rounds)
    (hsteps : steps + left = ceiling) (h : Follows view key arena discovered frontier)
    (hfits : ∀ k < left, ∀ node ∈ Frontier.waitingAfter key expand goal frontier k, Fits node)
    {rest : Nat} {result : Option τ} {final : Frontier ν κ}
    (hrun : Frontier.explore key expand (fun _ node => goal node) Option.isSome left none frontier =
      (rest, result, final))
    (hreport : ∀ n, final.toList.length = n + 1 → report n = .ok (n + 1)) :
    Arena.run visit report ceiling rounds steps arena =
      .ok ((Frontier.verdict result final.toList).map answer) := by
  -- The induction is on the rounds.  The steps taken and those left add up to the ceiling throughout.
  induction rounds generalizing steps left arena discovered frontier with
  | zero => exact absurd hrounds (Nat.not_lt_zero left)
  | succ rounds ih =>
    cases hpop : frontier.pop? with
    | none =>
      have hend : Frontier.explore key expand (fun _ node => goal node) Option.isSome left none frontier =
          (left, none, frontier) := by
        cases left with
        | zero => rfl
        | succ left => rw [Frontier.explore, hpop]; rfl
      rw [hend] at hrun
      cases hrun
      rw [Arena.run, h.queue_eq_nil hpop, Frontier.toList_of_pop?_eq_none hpop]
      rfl
    | some popped =>
      obtain ⟨node, others⟩ := popped
      obtain ⟨index, queue, hqueue, hnode, hlength, hfollows⟩ := h.pop hpop
      rw [Arena.run, hqueue]
      dsimp only
      cases left with
      | zero =>
        -- The node that was taken out is counted again in the report.
        have hwaiting := Frontier.toList_of_pop? hpop
        cases hrun
        rw [hwaiting, List.length_cons, ← hlength] at hreport
        rw [if_pos (by omega), hreport queue.length rfl, Checked.ok_bind, Checked.pure_eq, hwaiting, hlength]
        rfl
      | succ left =>
        have hwaits : node ∈ frontier.toList := by
          rw [Frontier.toList_of_pop? hpop]
          exact List.mem_cons_self
        rw [if_neg (by omega), Checked.add_eq_ok (by omega), Checked.ok_bind]
        rw [Frontier.explore, hpop] at hrun
        dsimp only [Option.isSome_none, Bool.false_eq_true, if_false] at hrun
        rcases hvisit hfollows hnode (hfits 0 (Nat.succ_pos left) node hwaits) with
          ⟨found, hgoal, hfound⟩ | ⟨hgoal, arena', discovered', hnext, hfollows'⟩
        · rw [hgoal, Frontier.explore_of_enough rfl] at hrun
          cases hrun
          rw [hfound]
          rfl
        · rw [hnext, Checked.ok_bind]
          rw [hgoal] at hrun
          refine ih (by omega) (by omega) hfollows' (fun k hk => ?_) hrun
          rw [← Frontier.waitingAfter_succ hpop hgoal]
          exact hfits (k + 1) (Nat.succ_lt_succ hk)

theorem follows_start [LawfulBEq π] [LawfulBEq κ]
    (hkey : ∀ m n, view.Valid m → view.Valid n → (view.place m = view.place n ↔ key m = key n))
    {root : ν} (hvalid : view.Valid root) {line : String} (hlines : view.lines root = [line]) :
    Follows view key (start (view.place root) line) [root] (Frontier.singleton key root) := by
  have hroot : ∀ (i : Nat) (node : ν), [root][i]? = some node → i = 0 ∧ node = root := by
    intro i node hnode
    cases i with
    | zero => exact ⟨rfl, (Option.some.inj hnode).symm⟩
    | succ i => cases hnode
  refine ⟨rfl, ?_, ?_, ⟨0, Nat.zero_le _, rfl, rfl⟩, ?_, ?_⟩
  · intro i node hnode
    obtain ⟨rfl, rfl⟩ := hroot i node hnode
    exact ⟨_, rfl, rfl⟩
  · intro i node hnode
    obtain ⟨rfl, rfl⟩ := hroot i node hnode
    rw [hlines]
    have hentry : (start (view.place node) line).nodes[0]? = some ⟨view.place node, none, line⟩ := rfl
    exact .first hentry rfl
  · intro node hnode
    have hbeq : (view.place root == view.place node) = (key root == key node) :=
      beq_eq_beq.mpr (hkey root node hvalid hnode)
    simp [start, Frontier.singleton, hbeq]
  · intro node hnode
    rw [List.mem_singleton.mp hnode]
    exact hvalid

/-- **A search over stored nodes** ends with the verdict of the search it follows. -/
theorem run_eq_search [LawfulBEq π] [LawfulBEq κ]
    (hkey : ∀ m n, view.Valid m → view.Valid n → (view.place m = view.place n ↔ key m = key n))
    (hvisit : Visits view key Fits expand goal answer visit) {ceiling : Nat}
    (hceiling : ceiling < wordLimit) {root : ν} (hvalid : view.Valid root) {line : String}
    (hlines : view.lines root = [line])
    (hfits : ∀ k < ceiling, ∀ node ∈ Frontier.waitingAfter key expand goal (.singleton key root) k,
      Fits node)
    (hreport : ∀ n, (Frontier.waitingAfter key expand goal (.singleton key root) ceiling).length = n + 1 →
      report n = .ok (n + 1)) :
    run visit report ceiling (ceiling + 1) 0 (start (view.place root) line) =
      .ok ((Frontier.search key expand goal ceiling root).map answer) := by
  rcases hrun : Frontier.explore key expand (fun _ node => goal node) Option.isSome ceiling none
    (Frontier.singleton key root) with ⟨left, result, final⟩
  rw [Frontier.search_eq_verdict key expand goal ceiling root hrun]
  rw [Frontier.waitingAfter, hrun] at hreport
  exact (follows_start hkey hvalid hlines).run hvisit hceiling (Nat.lt_succ_self ceiling)
    (Nat.zero_add ceiling) hfits hrun hreport

end Arena

end PhraseStructure
