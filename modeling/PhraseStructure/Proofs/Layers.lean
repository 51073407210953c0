import PhraseStructure.Proofs.Exploration

/-!
# Exploring layer by layer

A breadth-first exploration visits nodes in the order of their distance from the root.  Here distance is
given by a *rank* that grows by one with every move.  The nodes discovered are then sorted by rank, and of
those that wait none is more than one move behind another; `Layered` adds this to what is known about an
exploration.  As a result, whatever is nearer to the root than some visited node has been visited itself
(`Layered.exists_visited_of_rank_lt`).

Where a node remembers the path that led to it, the length of the path is its rank.  Other nodes are given
a *stamp* that counts the moves (`stamped`).  Stamps change nothing: an exploration of stamped nodes is the
exploration of the nodes (`explore_map`).

## Main definitions

* `Layered`: the invariant.
* `Frontier.map`: a frontier whose nodes are mapped, with the same known keys.
* `stamped`: moves that count themselves.

## Main results

* `Layered.visit`: one visit keeps the invariant.
* `Layered.exists_visited_of_rank_lt`: nearer nodes are visited first.
* `search_found_nearest`: a search finds a goal that is nearest to the root.
* `length_lt_of_search_found`, `exists_found_of_near`: a search finds a goal if its ceiling lets it visit
  everything that is no farther, and only if it lets it visit everything nearer.
* `explore_map`: explorations of nodes that are mapped and of their images run in step.
* `explore_stamped`: the history of an exploration, stamp by stamp.
-/

namespace PhraseStructure.Frontier

variable {ν μ κ ω τ : Type} [BEq κ] [Hashable κ] {key : ν → κ} {expand : ν → List ν}
  {rank : ν → Nat} {root : ν} {visited : List ν} {frontier : Frontier ν κ}

/-! ## Layers -/

/-- The state of an exploration that has discovered nodes layer by layer, where moves lead from one layer
to the next. -/
structure Layered (key : ν → κ) (expand : ν → List ν) (rank : ν → Nat) (root : ν) (visited : List ν)
    (frontier : Frontier ν κ) : Prop extends Explored key expand root visited frontier where
  /-- Nodes are discovered in the order of their ranks. -/
  sorted : (visited ++ frontier.toList).Pairwise fun a b => rank a ≤ rank b
  /-- Of the nodes that wait, none is more than one move behind another. -/
  spread : ∀ a ∈ frontier.toList, ∀ b ∈ frontier.toList, rank b ≤ rank a + 1
  /-- Where a visited node leads has been discovered in the next layer or before, up to the key. -/
  next : ∀ n ∈ visited, ∀ m ∈ expand n, ∃ m' ∈ visited ++ frontier.toList,
    key m' = key m ∧ rank m' ≤ rank n + 1

theorem layered_singleton [LawfulBEq κ] (key : ν → κ) (expand : ν → List ν) (rank : ν → Nat)
    (root : ν) : Layered key expand rank root [] (singleton key root) where
  toExplored := explored_singleton key expand root
  sorted := by simp
  spread a ha b hb := by
    rw [toList_singleton, List.mem_singleton] at ha hb
    rw [ha, hb]
    exact Nat.le_succ _
  next n hn := absurd hn List.not_mem_nil

/-- **One visit** keeps the layers: what it discovers stands behind everything that waits, and belongs to
the layer behind its own. -/
theorem Layered.visit [LawfulBEq κ] (hrank : ∀ n, ∀ m ∈ expand n, rank m = rank n + 1)
    {visited : List ν} {frontier rest : Frontier ν κ} {node : ν}
    (h : Layered key expand rank root visited frontier) (hpop : frontier.pop? = some (node, rest)) :
    Layered key expand rank root (visited ++ [node]) ((expand node).foldl (offer key) rest) := by
  have hwaiting := toList_of_pop? hpop
  have hlist : visited ++ frontier.toList = visited ++ [node] ++ rest.toList := by
    rw [hwaiting, List.append_assoc, List.singleton_append]
  have hfinal : ((expand node).foldl (offer key) rest).toList =
      rest.toList ++ newcomers key frontier.seen (expand node) := by
    rw [toList_foldl_offer, seen_of_pop? hpop]
  have hnew : ∀ m ∈ newcomers key frontier.seen (expand node), rank m = rank node + 1 :=
    fun m hm => hrank node m ((newcomers_sublist _ _).subset hm)
  -- Whatever was discovered before is at most one layer behind the node.
  have hold : ∀ n ∈ visited ++ frontier.toList, rank n ≤ rank node + 1 := by
    intro n hn
    rcases List.mem_append.mp hn with hn | hn
    · have hle := (List.pairwise_append.mp h.sorted).2.2 n hn node (by simp [hwaiting])
      exact Nat.le_succ_of_le hle
    · exact h.spread node (by simp [hwaiting]) n hn
  have hahead : ∀ n ∈ rest.toList, rank node ≤ rank n := by
    intro n hn
    have hsorted := h.sorted
    rw [hwaiting] at hsorted
    exact (List.pairwise_cons.mp (List.pairwise_append.mp hsorted).2.1).1 n hn
  refine ⟨h.toExplored.visit hpop, ?_, ?_, ?_⟩
  · rw [hfinal, ← List.append_assoc, ← hlist]
    refine List.pairwise_append.mpr ⟨h.sorted, ?_, ?_⟩
    · refine List.pairwise_of_forall_mem_list ?_
      intro a ha b hb
      have harank := hnew a ha
      have hbrank := hnew b hb
      omega
    · intro a ha b hb
      rw [hnew b hb]
      exact hold a ha
  · intro a ha b hb
    rw [hfinal, List.mem_append] at ha hb
    have hge : rank node ≤ rank a := by
      rcases ha with ha | ha
      · exact hahead a ha
      · rw [hnew a ha]
        exact Nat.le_succ _
    have hle : rank b ≤ rank node + 1 := by
      rcases hb with hb | hb
      · exact hold b (by simp [hwaiting, hb])
      · exact Nat.le_of_eq (hnew b hb)
    omega
  · intro n hn m hm
    rw [hfinal, ← List.append_assoc, ← hlist]
    rcases List.mem_append.mp hn with hn | hn
    · obtain ⟨m', hm', hkey, hle⟩ := h.next n hn m hm
      exact ⟨m', List.mem_append_left _ hm', hkey, hle⟩
    · rw [List.mem_singleton.mp hn] at hm ⊢
      -- The key is known after the visit, so one of the nodes discovered has it.
      have hseen : key m ∈ frontier.seen ∨ key m ∈ (expand node).map key :=
        Or.inr (List.mem_map_of_mem hm)
      rw [← mem_seen_or_newcomers, h.mem_seen, ← List.mem_append, ← List.map_append] at hseen
      obtain ⟨m', hm', hkey⟩ := List.mem_map.mp hseen
      refine ⟨m', hm', hkey, ?_⟩
      rcases List.mem_append.mp hm' with hm' | hm'
      · exact hold m' hm'
      · exact Nat.le_of_eq (hnew m' hm')

/-- **Nearer nodes are visited first**: once a node has been visited, so has every node of a smaller rank
to which the root leads, up to the key. -/
theorem Layered.exists_visited_of_rank_lt (h : Layered key expand rank root visited frontier)
    (hrank : ∀ n, ∀ m ∈ expand n, rank m = rank n + 1) (hmoves : SameMoves key expand root)
    {n m : ν} (hn : n ∈ visited) (hm : Leads expand root m) (hlt : rank m < rank n) :
    ∃ m' ∈ visited, key m' = key m ∧ rank m' ≤ rank m := by
  -- A node that still waits would stand behind `n`, hence have a rank at least as large.
  have hvisited : ∀ m' ∈ visited ++ frontier.toList, rank m' < rank n → m' ∈ visited := by
    intro m' hm' hlt'
    rcases List.mem_append.mp hm' with hm' | hm'
    · exact hm'
    · have hle := (List.pairwise_append.mp h.sorted).2.2 n hn m' hm'
      omega
  induction hm with
  | refl => exact ⟨root, hvisited root h.root_mem hlt, rfl, Nat.le_refl _⟩
  | @tail p m hp hpm ih =>
    have hstep := hrank p m hpm
    obtain ⟨p', hp', hkey, hle⟩ := ih (by omega)
    have hleads := h.leads p' (List.mem_append_left _ hp')
    obtain ⟨c, hc, hkeyc⟩ := hmoves p p' hp hleads hkey.symm m hpm
    obtain ⟨m', hm', hkeym, hlem⟩ := h.next p' hp' c hc
    exact ⟨m', hvisited m' hm' (by omega), hkeym.trans hkeyc, by omega⟩

/-! ## How far a search gets -/

variable {goal : ν → Option τ} {steps : Nat}

/-- **What is found comes after everything nearer**: the nodes of a smaller rank than the goal that was
found, and the goal itself, were all visited within the ceiling. -/
theorem length_lt_of_search_found [LawfulBEq κ] (hrank : ∀ n, ∀ m ∈ expand n, rank m = rank n + 1)
    (hmoves : SameMoves key expand root) {result : τ}
    (h : search key expand goal steps root = .found result) :
    ∃ n, Leads expand root n ∧ goal n = some result ∧
      ∀ near : List κ, near.Nodup → (∀ k ∈ near, ∃ m, Leads expand root m ∧ key m = k ∧
        key m ≠ key n ∧ rank m < rank n) → near.length < steps := by
  obtain ⟨visited, frontier, hlayered, hsteps, -, hend⟩ :=
    search_run (Layered.visit hrank) (layered_singleton key expand rank root) goal steps
  rw [h] at hend
  obtain ⟨n, hlast, hgoal⟩ := Option.bind_eq_some_iff.mp hend
  have hn := List.mem_of_getLast? hlast
  refine ⟨n, hlayered.leads n (List.mem_append_left _ hn), hgoal, ?_⟩
  intro near hnodup hnear
  have hne : key n ∉ near := by
    intro hmem
    obtain ⟨m, -, hkey, hdiff, -⟩ := hnear _ hmem
    exact hdiff hkey
  have hsub : key n :: near ⊆ visited.map key := by
    intro k hk
    rcases List.mem_cons.mp hk with rfl | hk
    · exact List.mem_map_of_mem hn
    · obtain ⟨m, hm, rfl, -, hlt⟩ := hnear k hk
      obtain ⟨m', hm', hkey, -⟩ :=
        hlayered.exists_visited_of_rank_lt hrank hmoves hn hm hlt
      exact List.mem_map.mpr ⟨m', hm', hkey⟩
  have hle := (List.subperm_of_subset (List.nodup_cons.mpr ⟨hne, hnodup⟩) hsub).length_le
  rw [List.length_cons, List.length_map] at hle
  omega

/-- **What is found is nearest**: no goal to which the root leads has a smaller rank. -/
theorem search_found_nearest [LawfulBEq κ] (hrank : ∀ n, ∀ m ∈ expand n, rank m = rank n + 1)
    (hsame : Interchangeable key expand goal root) {result : τ}
    (h : search key expand goal steps root = .found result) :
    ∃ n, Leads expand root n ∧ goal n = some result ∧
      ∀ m, Leads expand root m → goal m ≠ none → rank n ≤ rank m := by
  obtain ⟨visited, frontier, hlayered, -, hbefore, hend⟩ :=
    search_run (Layered.visit hrank) (layered_singleton key expand rank root) goal steps
  rw [h] at hend
  obtain ⟨n, hlast, hgoal⟩ := Option.bind_eq_some_iff.mp hend
  have hn := List.mem_of_getLast? hlast
  refine ⟨n, hlayered.leads n (List.mem_append_left _ hn), hgoal, ?_⟩
  intro m hm hgoal'
  by_contra hlt
  obtain ⟨m', hm', hkey, hle⟩ :=
    hlayered.exists_visited_of_rank_lt hrank hsame.moves hn hm (by omega)
  have hleads := hlayered.leads m' (List.mem_append_left _ hm')
  -- A double of the nearer goal was visited before the last node, and the search went on.
  obtain ⟨before, after, rfl⟩ := List.append_of_mem hm'
  have hafter : after ≠ [] := by
    rintro rfl
    obtain rfl : m' = n := by simpa using hlast
    omega
  exact hgoal' (hsame.goals m' m hleads hm hkey (hbefore before m' after rfl hafter))

/-- **What is near is found**: a ceiling at the number of keys that are no farther than some goal is high
enough for a search to find a goal. -/
theorem exists_found_of_near [LawfulBEq κ] (hrank : ∀ n, ∀ m ∈ expand n, rank m = rank n + 1)
    (hsame : Interchangeable key expand goal root) {n : ν} (hn : Leads expand root n)
    (hgoal : goal n ≠ none) (near : List κ)
    (hnear : ∀ m, Leads expand root m → rank m ≤ rank n → key m ∈ near)
    (hsteps : near.length ≤ steps) :
    ∃ result, search key expand goal steps root = .found result := by
  cases h : search key expand goal steps root with
  | found result => exact ⟨result, rfl⟩
  | exhausted => exact absurd (goal_eq_none_of_search_exhausted hsame h hn) hgoal
  | gaveUp waiting =>
    obtain ⟨visited, frontier, hlayered, -, hbefore, hend⟩ :=
      search_run (Layered.visit hrank) (layered_singleton key expand rank root) goal steps
    rw [h] at hend
    obtain ⟨hlast, hlength, -, -⟩ := hend
    have hleads : ∀ m ∈ visited, Leads expand root m :=
      fun m hm => hlayered.leads m (List.mem_append_left _ hm)
    -- No double of the goal has been visited: it would be a goal as well.
    have hunvisited : ∀ m ∈ visited, key m ≠ key n := by
      intro m hm hkey
      exact hgoal (hsame.goals m n (hleads m hm) hn hkey (goal_eq_none_of_mem hbefore hlast hm))
    have hle : ∀ m ∈ visited, rank m ≤ rank n := by
      intro m hm
      by_contra hlt
      obtain ⟨m', hm', hkey, -⟩ :=
        hlayered.exists_visited_of_rank_lt hrank hsame.moves hm hn (by omega)
      exact hunvisited m' hm' hkey
    have hsub : key n :: visited.map key ⊆ near := by
      intro k hk
      rcases List.mem_cons.mp hk with rfl | hk
      · exact hnear n hn (Nat.le_refl _)
      · obtain ⟨m, hm, rfl⟩ := List.mem_map.mp hk
        exact hnear m (hleads m hm) (hle m hm)
    have hnodup : (key n :: visited.map key).Nodup := by
      refine List.nodup_cons.mpr ⟨?_, hlayered.nodup_visited⟩
      intro hmem
      obtain ⟨m, hm, hkey⟩ := List.mem_map.mp hmem
      exact hunvisited m hm hkey
    have hlength' := (List.subperm_of_subset hnodup hsub).length_le
    rw [List.length_cons, List.length_map] at hlength'
    omega

/-! ## Mapping nodes -/

/-- A frontier with its nodes mapped; the known keys stay as they are. -/
def map (f : μ → ν) (frontier : Frontier μ κ) : Frontier ν κ where
  front := frontier.front.map f
  back := frontier.back.map f
  seen := frontier.seen

theorem pop?_map (f : μ → ν) (frontier : Frontier μ κ) :
    (frontier.map f).pop? = frontier.pop?.map fun (node, rest) => (f node, rest.map f) := by
  obtain ⟨front, back, seen⟩ := frontier
  cases front with
  | cons node front => rfl
  | nil =>
    rcases List.eq_nil_or_concat back with rfl | ⟨back, node, rfl⟩
    · rfl
    · simp [map, pop?]

theorem offer_map (f : μ → ν) (frontier : Frontier μ κ) (node : μ) :
    (frontier.map f).offer key (f node) = (frontier.offer (key ∘ f) node).map f := by
  by_cases h : frontier.seen.contains (key (f node)) = true
  · simp [offer, map, h]
  · simp [offer, map, h]

theorem foldl_offer_map (f : μ → ν) (frontier : Frontier μ κ) (nodes : List μ) :
    (nodes.map f).foldl (offer key) (frontier.map f) =
      (nodes.foldl (offer (key ∘ f)) frontier).map f := by
  induction nodes generalizing frontier with
  | nil => rfl
  | cons node nodes ih => rw [List.map_cons, List.foldl_cons, offer_map, ih, List.foldl_cons]

/-- **Explorations run in step** where one is the image of the other. -/
theorem explore_map (f : μ → ν) {expand' : μ → List μ}
    (hexpand : ∀ node, expand (f node) = (expand' node).map f) (gather : ω → ν → ω)
    (enough : ω → Bool) (steps : Nat) (gathered : ω) (frontier : Frontier μ κ) :
    explore key expand gather enough steps gathered (frontier.map f) =
      let (left, result, final) := explore (key ∘ f) expand' (fun gathered node =>
        gather gathered (f node)) enough steps gathered frontier
      (left, result, final.map f) := by
  induction steps generalizing gathered frontier with
  | zero => rfl
  | succ steps ih =>
    rw [explore, explore]
    split
    · rfl
    · rw [pop?_map]
      cases frontier.pop? with
      | none => rfl
      | some popped =>
        simp only [Option.map_some]
        rw [hexpand, foldl_offer_map, ih]

/-! ## Stamps -/

/-- The moves of a node that carries the number of moves made so far. -/
def stamped (expand : ν → List ν) (node : ν × Nat) : List (ν × Nat) :=
  (expand node.1).map fun n => (n, node.2 + 1)

theorem mem_stamped {node node' : ν × Nat} :
    node' ∈ stamped expand node ↔ node'.1 ∈ expand node.1 ∧ node'.2 = node.2 + 1 := by
  obtain ⟨n, k⟩ := node'
  simp [stamped, eq_comm]

/-- Stamps do not change where a node leads. -/
theorem exists_leads_stamped {n : ν} {k : Nat} (h : Leads expand root n) :
    ∃ k', Leads (stamped expand) (root, k) (n, k') := by
  induction h with
  | refl => exact ⟨k, .refl⟩
  | tail _ hmove ih =>
    obtain ⟨k', hk'⟩ := ih
    exact ⟨k' + 1, hk'.tail (mem_stamped.mpr ⟨hmove, rfl⟩)⟩

theorem leads_of_leads_stamped {node node' : ν × Nat} (h : Leads (stamped expand) node node') :
    Leads expand node.1 node'.1 := by
  induction h with
  | refl => exact .refl
  | tail _ hmove ih => exact ih.tail (mem_stamped.mp hmove).1

/-- A stamp has no influence on where its node leads next, if nodes are their own keys. -/
theorem sameMoves_stamped {node : ν × Nat} : SameMoves Prod.fst (stamped expand) node := by
  intro a b _ _ hkey a' ha'
  obtain ⟨hmove, -⟩ := mem_stamped.mp ha'
  rw [hkey] at hmove
  exact ⟨(a'.1, b.2 + 1), mem_stamped.mpr ⟨hmove, rfl⟩, rfl⟩

/-- **The history of an exploration, stamp by stamp**: the nodes it has visited, each with the number of
moves that led to it. -/
theorem explore_stamped [LawfulBEq κ] {gather : ω → ν → ω} {enough : ω → Bool} {steps left : Nat}
    {gathered result : ω} {final : Frontier ν κ}
    (hrun : explore key expand gather enough steps gathered (singleton key root) =
      (left, result, final)) :
    ∃ (visited : List (ν × Nat)) (frontier : Frontier (ν × Nat) κ),
      Layered (key ∘ Prod.fst) (stamped expand) Prod.snd (root, 0) visited frontier ∧
      result = (visited.map Prod.fst).foldl gather gathered ∧ left + visited.length = steps ∧
      (left = 0 ∨ enough result = true ∨ frontier.toList = []) := by
  have hroot : singleton key root = (singleton (key ∘ Prod.fst) (root, 0)).map Prod.fst := rfl
  have hexpand : ∀ node : ν × Nat, expand node.1 = (stamped expand node).map Prod.fst := by
    intro node
    rw [stamped, List.map_map]
    exact (List.map_id _).symm
  rw [hroot, explore_map Prod.fst hexpand] at hrun
  rcases hstamped : explore (key ∘ Prod.fst) (stamped expand) (fun gathered node =>
    gather gathered node.1) enough steps gathered (singleton (key ∘ Prod.fst) (root, 0))
    with ⟨left', result', final'⟩
  rw [hstamped] at hrun
  cases hrun
  obtain ⟨visited, hlayered, hresult, hsteps, hend, -⟩ :=
    explore_run (Layered.visit fun _ _ hm => (mem_stamped.mp hm).2)
      (layered_singleton _ _ Prod.snd _) hstamped
  refine ⟨visited, final', by simpa using hlayered, ?_, hsteps, hend⟩
  rw [hresult, List.foldl_map]

end PhraseStructure.Frontier
