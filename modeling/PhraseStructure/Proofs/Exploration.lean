import PhraseStructure.Frontier
import Mathlib.Data.List.Nodup
import Mathlib.Data.List.Perm.Subperm
import Mathlib.Logic.Relation

/-!
# What an exploration finds

An exploration has a history: the nodes it has visited, in order.  Together with the nodes that still
wait they are the nodes *discovered*.  One invariant, `Explored`, says how history, waiting nodes and
known keys belong together, and a visit keeps it (`Explored.visit`).  Whatever every visit keeps, a whole
exploration keeps (`explore_run`), so that everything known about a search for a goal is read off such
invariants at its end (`search_run`).

Two nodes with the same key count as one, and only the first of them is visited.  A search therefore
decides whether a goal can be reached only where nodes of the same key lead to the same keys and agree
on being a goal; `Interchangeable` collects what is needed.

## Main definitions

* `Leads`: one node leads to another in any number of moves.
* `newcomers`: the nodes of a list that are discovered when they are offered in order.
* `Explored`: the invariant of an exploration.
* `Interchangeable`: nodes of the same key are as good as each other.

## Main results

* `Explored.visit`: one visit keeps the invariant.
* `explore_run`, `search_run`: what every visit keeps holds at the end of an exploration and of a search.
* `search_found`: what was found is a goal to which the root leads.
* `search_gaveUp`: a search that gives up has discovered more keys than its ceiling.
* `search_decides`: with a ceiling above the number of keys, a search finds a goal exactly when the
  root leads to one.
-/

namespace PhraseStructure.Frontier

variable {ν κ ω τ : Type} [BEq κ] [Hashable κ] {key : ν → κ} {expand : ν → List ν}

/-- One node leads to another in any number of moves. -/
def Leads (expand : ν → List ν) : ν → ν → Prop :=
  Relation.ReflTransGen fun a b => b ∈ expand a

/-! ## Offering many nodes -/

/-- The nodes that are discovered when the nodes of a list are offered in order: those whose keys are
not known, each key once. -/
def newcomers (key : ν → κ) : Std.HashSet κ → List ν → List ν
  | _, [] => []
  | seen, node :: nodes =>
    if seen.contains (key node) then newcomers key seen nodes
    else node :: newcomers key (seen.insert (key node)) nodes

theorem newcomers_sublist (seen : Std.HashSet κ) (nodes : List ν) :
    (newcomers key seen nodes).Sublist nodes := by
  induction nodes generalizing seen with
  | nil => exact List.Sublist.refl []
  | cons node nodes ih =>
    rw [newcomers]
    split
    · exact (ih seen).cons node
    · exact (ih _).cons_cons node

theorem toList_foldl_offer (frontier : Frontier ν κ) (nodes : List ν) :
    (nodes.foldl (offer key) frontier).toList =
      frontier.toList ++ newcomers key frontier.seen nodes := by
  induction nodes generalizing frontier with
  | nil => simp [newcomers]
  | cons node nodes ih =>
    rw [List.foldl_cons, ih, toList_offer, newcomers]
    by_cases h : frontier.seen.contains (key node) = true
    · simp [offer, h]
    · simp [offer, h]

section

variable [LawfulBEq κ]

theorem key_notMem_of_mem_newcomers {seen : Std.HashSet κ} {nodes : List ν} {n : ν}
    (h : n ∈ newcomers key seen nodes) : key n ∉ seen := by
  induction nodes generalizing seen with
  | nil => simp [newcomers] at h
  | cons node nodes ih =>
    rw [newcomers] at h
    split at h
    · exact ih h
    · next hnode =>
      rcases List.mem_cons.mp h with rfl | h
      · simpa using hnode
      · intro hn
        exact ih h (Std.HashSet.mem_insert.mpr (Or.inr hn))

theorem nodup_newcomers (seen : Std.HashSet κ) (nodes : List ν) :
    ((newcomers key seen nodes).map key).Nodup := by
  induction nodes generalizing seen with
  | nil => simp [newcomers]
  | cons node nodes ih =>
    rw [newcomers]
    split
    · exact ih seen
    · refine List.nodup_cons.mpr ⟨?_, ih _⟩
      intro hmem
      obtain ⟨n, hn, hkey⟩ := List.mem_map.mp hmem
      apply key_notMem_of_mem_newcomers hn
      simp [hkey]

theorem mem_seen_offer {frontier : Frontier ν κ} {node : ν} {k : κ} :
    k ∈ (frontier.offer key node).seen ↔ k ∈ frontier.seen ∨ k = key node := by
  rw [offer]
  split
  · next h =>
    have hnode : key node ∈ frontier.seen := h
    constructor
    · exact Or.inl
    · rintro (hk | rfl)
      · exact hk
      · exact hnode
  · rw [Std.HashSet.mem_insert, beq_iff_eq, eq_comm, or_comm]

theorem mem_seen_foldl_offer {frontier : Frontier ν κ} {nodes : List ν} {k : κ} :
    k ∈ (nodes.foldl (offer key) frontier).seen ↔ k ∈ frontier.seen ∨ k ∈ nodes.map key := by
  induction nodes generalizing frontier with
  | nil => simp
  | cons node nodes ih =>
    rw [List.foldl_cons, ih, mem_seen_offer, List.map_cons, List.mem_cons, or_assoc]

/-- Offering nodes makes their keys known, and no others. -/
theorem mem_seen_or_newcomers {seen : Std.HashSet κ} {nodes : List ν} {k : κ} :
    k ∈ seen ∨ k ∈ (newcomers key seen nodes).map key ↔ k ∈ seen ∨ k ∈ nodes.map key := by
  induction nodes generalizing seen with
  | nil => simp [newcomers]
  | cons node nodes ih =>
    rw [newcomers]
    split
    · next h =>
      have hnode : key node ∈ seen := h
      rw [ih, List.map_cons, List.mem_cons]
      constructor
      · exact Or.imp_right Or.inr
      · rintro (hk | rfl | hk)
        · exact Or.inl hk
        · exact Or.inl hnode
        · exact Or.inr hk
    · have hins : k ∈ seen.insert (key node) ↔ k ∈ seen ∨ k = key node := by
        rw [Std.HashSet.mem_insert, beq_iff_eq, eq_comm, or_comm]
      rw [List.map_cons, List.mem_cons, ← or_assoc, ← hins, ih, hins, or_assoc, List.map_cons,
        List.mem_cons]

end

/-! ## The invariant -/

/-- The state of an exploration from `root` that has visited `visited`, in order. -/
structure Explored (key : ν → κ) (expand : ν → List ν) (root : ν) (visited : List ν)
    (frontier : Frontier ν κ) : Prop where
  /-- The known keys are those of the nodes discovered. -/
  mem_seen : ∀ k, k ∈ frontier.seen ↔ k ∈ (visited ++ frontier.toList).map key
  /-- No two nodes discovered share a key. -/
  nodup : ((visited ++ frontier.toList).map key).Nodup
  /-- The root leads to every node discovered. -/
  leads : ∀ n ∈ visited ++ frontier.toList, Leads expand root n
  /-- The root was discovered. -/
  root_mem : root ∈ visited ++ frontier.toList
  /-- Where a visited node leads has been discovered, up to the key. -/
  closed : ∀ n ∈ visited, ∀ m ∈ expand n, key m ∈ frontier.seen

theorem explored_singleton [LawfulBEq κ] (key : ν → κ) (expand : ν → List ν) (root : ν) :
    Explored key expand root [] (singleton key root) where
  mem_seen k := by
    rw [singleton, toList, Std.HashSet.mem_insert, beq_iff_eq, eq_comm]
    simp
  nodup := by simp
  leads n hn := by
    rw [List.nil_append, toList_singleton, List.mem_singleton] at hn
    exact hn ▸ Relation.ReflTransGen.refl
  root_mem := by simp
  closed n hn := absurd hn List.not_mem_nil

theorem toList_of_pop? {frontier rest : Frontier ν κ} {node : ν}
    (h : frontier.pop? = some (node, rest)) : frontier.toList = node :: rest.toList := by
  rw [toList_pop?, h]

theorem toList_of_pop?_eq_none {frontier : Frontier ν κ} (h : frontier.pop? = none) :
    frontier.toList = [] := by
  rw [toList_pop?, h]

theorem seen_of_pop? {frontier rest : Frontier ν κ} {node : ν}
    (h : frontier.pop? = some (node, rest)) : rest.seen = frontier.seen := by
  obtain ⟨front, back, seen⟩ := frontier
  cases front with
  | cons n front =>
    rw [pop?] at h
    cases h
    rfl
  | nil =>
    simp only [pop?] at h
    split at h
    · cases h
    · cases h
      rfl

variable {root : ν} {visited : List ν} {frontier : Frontier ν κ}

theorem Explored.nodup_visited (h : Explored key expand root visited frontier) :
    (visited.map key).Nodup := by
  have hall := h.nodup
  rw [List.map_append] at hall
  exact (List.nodup_append.mp hall).1

/-- **One visit**: the node that has waited longest becomes the last one visited, and the nodes it
leads to wait if their keys are new. -/
theorem Explored.visit [LawfulBEq κ] {rest : Frontier ν κ} {node : ν}
    (h : Explored key expand root visited frontier) (hpop : frontier.pop? = some (node, rest)) :
    Explored key expand root (visited ++ [node]) ((expand node).foldl (offer key) rest) := by
  have hlist : visited ++ frontier.toList = visited ++ [node] ++ rest.toList := by
    rw [toList_of_pop? hpop, List.append_assoc, List.singleton_append]
  -- Discovering is additive: the nodes known before stay in place, the newcomers stand behind them.
  have hdiscovered : visited ++ [node] ++ ((expand node).foldl (offer key) rest).toList =
      visited ++ frontier.toList ++ newcomers key frontier.seen (expand node) := by
    rw [toList_foldl_offer, hlist, seen_of_pop? hpop, ← List.append_assoc]
  have hnode : node ∈ visited ++ frontier.toList := by simp [toList_of_pop? hpop]
  refine ⟨?_, ?_, ?_, ?_, ?_⟩
  · intro k
    rw [hdiscovered, mem_seen_foldl_offer, seen_of_pop? hpop, List.map_append, List.mem_append,
      ← h.mem_seen k, mem_seen_or_newcomers]
  · rw [hdiscovered, List.map_append]
    refine List.nodup_append.mpr ⟨h.nodup, nodup_newcomers _ _, ?_⟩
    intro k hk k' hk' heq
    obtain ⟨n, hn, rfl⟩ := List.mem_map.mp hk'
    exact key_notMem_of_mem_newcomers hn ((h.mem_seen _).mpr (heq ▸ hk))
  · intro n hn
    rw [hdiscovered] at hn
    rcases List.mem_append.mp hn with hn | hn
    · exact h.leads n hn
    · exact (h.leads node hnode).tail ((newcomers_sublist _ _).subset hn)
  · rw [hdiscovered]
    exact List.mem_append_left _ h.root_mem
  · intro n hn m hm
    rw [mem_seen_foldl_offer, seen_of_pop? hpop]
    rcases List.mem_append.mp hn with hn | hn
    · exact Or.inl (h.closed n hn m hm)
    · rw [List.mem_singleton.mp hn] at hm
      exact Or.inr (List.mem_map_of_mem hm)

/-- Nodes of the same key to which the root leads lead to the same keys. -/
def SameMoves (key : ν → κ) (expand : ν → List ν) (root : ν) : Prop :=
  ∀ a b, Leads expand root a → Leads expand root b → key a = key b →
    ∀ a' ∈ expand a, ∃ b' ∈ expand b, key b' = key a'

/-- Once nothing waits, everything to which the root leads has been visited, up to the key. -/
theorem Explored.exists_visited (h : Explored key expand root visited frontier)
    (hmoves : SameMoves key expand root) (hwaiting : frontier.toList = []) {n : ν}
    (hn : Leads expand root n) : ∃ n' ∈ visited, key n' = key n := by
  have hall : visited ++ frontier.toList = visited := by rw [hwaiting, List.append_nil]
  -- Along the path to `n` every node has a double of the same key among those visited.
  induction hn with
  | refl => exact ⟨root, hall ▸ h.root_mem, rfl⟩
  | @tail a a' ha ha' ih =>
    obtain ⟨b, hb, hkey⟩ := ih
    have hleads := h.leads b (List.mem_append_left _ hb)
    obtain ⟨b', hb', hkey'⟩ := hmoves a b ha hleads hkey.symm a' ha'
    have hseen := (h.mem_seen (key b')).mp (h.closed b hb b' hb')
    rw [hall] at hseen
    obtain ⟨c, hc, hkeyc⟩ := List.mem_map.mp hseen
    exact ⟨c, hc, hkeyc.trans hkey'⟩

/-! ## A whole exploration -/

/-- **What every visit keeps, a whole exploration keeps.**  The exploration gathers from the nodes it
visits, one by one; it ends because its ceiling is reached, because it has gathered enough, or because
nothing waits; and it had not gathered enough before its last visit. -/
theorem explore_run {Holds : List ν → Frontier ν κ → Prop}
    (hvisit : ∀ {visited frontier node rest}, Holds visited frontier →
      frontier.pop? = some (node, rest) →
      Holds (visited ++ [node]) ((expand node).foldl (offer key) rest))
    {gather : ω → ν → ω} {enough : ω → Bool} {steps left : Nat} {gathered result : ω}
    {final : Frontier ν κ} (h : Holds visited frontier)
    (hrun : explore key expand gather enough steps gathered frontier = (left, result, final)) :
    ∃ later, Holds (visited ++ later) final ∧
      result = later.foldl gather gathered ∧ left + later.length = steps ∧
      (left = 0 ∨ enough result = true ∨ final.toList = []) ∧
      ∀ before node after, later = before ++ node :: after →
        enough (before.foldl gather gathered) = false := by
  -- The induction is on the ceiling; each step is one visit, and the nodes of `later` are those visited.
  induction steps generalizing visited gathered frontier with
  | zero =>
    cases hrun
    exact ⟨[], by simpa using h, rfl, rfl, Or.inl rfl, by simp⟩
  | succ steps ih =>
    rw [explore] at hrun
    by_cases henough : enough gathered = true
    · rw [if_pos henough] at hrun
      cases hrun
      exact ⟨[], by simpa using h, rfl, rfl, Or.inr (Or.inl henough), by simp⟩
    · rw [if_neg henough] at hrun
      cases hpop : frontier.pop? with
      | none =>
        rw [hpop] at hrun
        cases hrun
        exact ⟨[], by simpa using h, rfl, rfl, Or.inr (Or.inr (toList_of_pop?_eq_none hpop)),
          by simp⟩
      | some popped =>
        obtain ⟨node, rest⟩ := popped
        rw [hpop] at hrun
        obtain ⟨later, hholds, hresult, hsteps, hend, hbefore⟩ := ih (hvisit h hpop) hrun
        refine ⟨node :: later, by simpa using hholds, hresult, ?_, hend, ?_⟩
        · rw [List.length_cons]
          omega
        · intro before n after heq
          cases before with
          | nil => simpa using henough
          | cons b before =>
            obtain ⟨rfl, htail⟩ := List.cons.inj heq
            exact hbefore before n after htail

/-! ## Looking for a goal -/

variable {goal : ν → Option τ} {steps : Nat}

/-- A search remembers the answer of its last visit only. -/
theorem foldl_goal (visited : List ν) :
    visited.foldl (fun _ node => goal node) none = visited.getLast?.bind goal := by
  rcases List.eq_nil_or_concat visited with rfl | ⟨visited, node, rfl⟩
  · rfl
  · simp

/-- **The end of a search**: the nodes it has visited, and what every visit has kept.  No node but the last
one visited can be a goal, and that one only if the search has found something. -/
theorem search_run {Holds : List ν → Frontier ν κ → Prop}
    (hvisit : ∀ {visited frontier node rest}, Holds visited frontier →
      frontier.pop? = some (node, rest) →
      Holds (visited ++ [node]) ((expand node).foldl (offer key) rest))
    (hroot : Holds [] (singleton key root)) (goal : ν → Option τ) (steps : Nat) :
    ∃ visited frontier, Holds visited frontier ∧ visited.length ≤ steps ∧
      (∀ before node after, visited = before ++ node :: after → after ≠ [] → goal node = none) ∧
      match search key expand goal steps root with
      | .found result => visited.getLast?.bind goal = some result
      | .exhausted => visited.getLast?.bind goal = none ∧ frontier.toList = []
      | .gaveUp waiting => visited.getLast?.bind goal = none ∧ visited.length = steps ∧
          frontier.toList.length = waiting ∧ 0 < waiting := by
  rw [search]
  rcases hrun : explore key expand (fun _ node => goal node) Option.isSome steps none
    (singleton key root) with ⟨left, result, frontier⟩
  obtain ⟨visited, hholds, hresult, hsteps, hend, hbefore⟩ := explore_run hvisit hroot hrun
  rw [foldl_goal] at hresult
  refine ⟨visited, frontier, by simpa using hholds, by omega, ?_, ?_⟩
  · -- The node behind it was visited only because this one had not been enough.
    rintro before node after rfl hafter
    obtain ⟨n, after, rfl⟩ := List.exists_cons_of_ne_nil hafter
    have hnone := hbefore (before ++ [node]) n after (by simp)
    simpa [foldl_goal] using hnone
  · cases result with
    | some result => exact hresult.symm
    | none =>
      cases hwaiting : frontier.toList with
      | nil =>
        simp only [hwaiting]
        exact ⟨hresult.symm, trivial⟩
      | cons n waiting =>
        have hleft : left = 0 := by simpa [hwaiting] using hend
        simp only [hwaiting]
        exact ⟨hresult.symm, by omega, trivial, by simp⟩

/-- A node that was visited before the end of a search is no goal. -/
theorem goal_eq_none_of_mem {n : ν}
    (hbefore : ∀ before node after, visited = before ++ node :: after → after ≠ [] → goal node = none)
    (hlast : visited.getLast?.bind goal = none) (hn : n ∈ visited) : goal n = none := by
  obtain ⟨before, after, rfl⟩ := List.append_of_mem hn
  by_cases hafter : after = []
  · subst hafter
    simpa using hlast
  · exact hbefore before n after rfl hafter

/-- What a search finds is a goal to which the root leads. -/
theorem search_found [LawfulBEq κ] {result : τ}
    (h : search key expand goal steps root = .found result) :
    ∃ n, Leads expand root n ∧ goal n = some result := by
  obtain ⟨visited, frontier, hexplored, -, -, hend⟩ :=
    search_run Explored.visit (explored_singleton key expand root) goal steps
  rw [h] at hend
  obtain ⟨n, hlast, hgoal⟩ := Option.bind_eq_some_iff.mp hend
  exact ⟨n, hexplored.leads n (List.mem_append_left _ (List.mem_of_getLast? hlast)), hgoal⟩

/-- A search that gives up has discovered more nodes than its ceiling, no two with the same key. -/
theorem search_gaveUp [LawfulBEq κ] {waiting : Nat}
    (h : search key expand goal steps root = .gaveUp waiting) :
    ∃ discovered : List ν, (discovered.map key).Nodup ∧ steps < discovered.length ∧
      ∀ n ∈ discovered, Leads expand root n := by
  obtain ⟨visited, frontier, hexplored, -, -, hend⟩ :=
    search_run Explored.visit (explored_singleton key expand root) goal steps
  rw [h] at hend
  obtain ⟨-, hsteps, hwaiting, hpos⟩ := hend
  refine ⟨visited ++ frontier.toList, hexplored.nodup, ?_, hexplored.leads⟩
  rw [List.length_append]
  omega

/-- A ceiling at the number of keys is high enough. -/
theorem search_ne_gaveUp [LawfulBEq κ] {keys : List κ}
    (hkeys : ∀ n, Leads expand root n → key n ∈ keys) (hsteps : keys.length ≤ steps)
    (waiting : Nat) : search key expand goal steps root ≠ .gaveUp waiting := by
  intro h
  obtain ⟨discovered, hnodup, hlength, hleads⟩ := search_gaveUp h
  -- More nodes than keys were discovered, all of different keys.
  have hsub : discovered.map key ⊆ keys := by
    intro k hk
    obtain ⟨n, hn, rfl⟩ := List.mem_map.mp hk
    exact hkeys n (hleads n hn)
  have hle := (List.subperm_of_subset hnodup hsub).length_le
  rw [List.length_map] at hle
  omega

/-- Nodes of the same key to which the root leads are as good as each other: they lead to the same keys,
and if one is no goal then neither is the other. -/
structure Interchangeable (key : ν → κ) (expand : ν → List ν) (goal : ν → Option τ) (root : ν) :
    Prop where
  /-- They lead to the same keys. -/
  moves : ∀ a b, Leads expand root a → Leads expand root b → key a = key b →
    ∀ a' ∈ expand a, ∃ b' ∈ expand b, key b' = key a'
  /-- They agree on being no goal. -/
  goals : ∀ a b, Leads expand root a → Leads expand root b → key a = key b →
    goal a = none → goal b = none

/-- A search that ends without a goal has seen the key of every node to which the root leads. -/
theorem goal_eq_none_of_search_exhausted [LawfulBEq κ]
    (hsame : Interchangeable key expand goal root)
    (h : search key expand goal steps root = .exhausted) {n : ν} (hn : Leads expand root n) :
    goal n = none := by
  obtain ⟨visited, frontier, hexplored, -, hbefore, hend⟩ :=
    search_run Explored.visit (explored_singleton key expand root) goal steps
  rw [h] at hend
  obtain ⟨hlast, hwaiting⟩ := hend
  obtain ⟨n', hn', hkey⟩ := hexplored.exists_visited hsame.moves hwaiting hn
  have hleads := hexplored.leads n' (List.mem_append_left _ hn')
  exact hsame.goals n' n hleads hn hkey (goal_eq_none_of_mem hbefore hlast hn')

/-- **A search decides whether its root leads to a goal**, once its ceiling is at least the number of
keys. -/
theorem search_decides [LawfulBEq κ] {keys : List κ}
    (hsame : Interchangeable key expand goal root)
    (hkeys : ∀ n, Leads expand root n → key n ∈ keys) (hsteps : keys.length ≤ steps) :
    (∃ result, search key expand goal steps root = .found result) ↔
      ∃ n, Leads expand root n ∧ goal n ≠ none := by
  constructor
  · rintro ⟨result, h⟩
    obtain ⟨n, hn, hgoal⟩ := search_found h
    exact ⟨n, hn, by simp [hgoal]⟩
  · rintro ⟨n, hn, hgoal⟩
    cases h : search key expand goal steps root with
    | found result => exact ⟨result, rfl⟩
    | exhausted => exact absurd (goal_eq_none_of_search_exhausted hsame h hn) hgoal
    | gaveUp waiting => exact absurd h (search_ne_gaveUp hkeys hsteps waiting)

end PhraseStructure.Frontier
