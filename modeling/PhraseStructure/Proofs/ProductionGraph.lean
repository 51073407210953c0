import PhraseStructure.Expansion
import PhraseStructure.Proofs.Construction
import Mathlib.Data.List.Nodup
import Mathlib.Data.List.Perm.Subperm
import Mathlib.Logic.Relation

/-!
# The drawing visits the simple paths

In the graph of productions an edge leads from a nonterminal to each nonterminal that occurs in one of its
alternatives, and is labelled with the place of that alternative.  The drawing goes down from the start symbol
along these edges.  Nonterminals that lie above are not expanded again, but those that were expanded elsewhere
are: each branch of the drawing has its own account of what is above it.  So what the drawing goes along are
the simple paths of the graph, all of them, and each of them once.

A nonterminal is come upon for the first time on a path, and then it is expanded, or it is come upon again, and
then the path ends there (`Arrival`).  Both are listed by one recursion, which is that of the drawing without its
text (`Grammar.ways`).  Its two sides are compared apart: the lines of the drawing are those of the paths listed
(`Grammar.filter_expansion`), and the paths listed are the simple ones (`Grammar.mem_ways_first`) and those that
have just come back (`Grammar.mem_ways_again`).

## Main definitions

* `Grammar.IsPath`, `stations`, `endpoint`: labelled paths of the graph and the nonterminals on them.
* `Arrival`, `Grammar.ways`: the paths that the drawing goes along.
* `Grammar.visitLine`: the line that stands for a path.

## Main results

* `Grammar.filter_expansion`: the lines of a drawing, one for each path listed.
* `Grammar.mem_ways_first`, `Grammar.mem_ways_again`, `Grammar.nodup_ways`: which paths are listed.
* `Grammar.reachable_iff_exists_isPath`: what can be reached is reached on a simple path.
* `Grammar.text_visitLine_first`, `Grammar.text_visitLine_again`: what the lines for paths print.
* `Grammar.drawing_visits_simple_paths`: what the drawing shows.
-/

namespace PhraseStructure

variable {α : Type}

/-- A path from a nonterminal on: at each step, the place of an alternative and a nonterminal that occurs there. -/
abbrev LabelledPath : Type := List (Nat × Symbol)

/-- The nonterminals on a path, from the first to the last. -/
def stations (c : Symbol) (path : LabelledPath) : List Symbol :=
  c :: path.map Prod.snd

/-- The last nonterminal on a path. -/
def endpoint (c : Symbol) (path : LabelledPath) : Symbol :=
  (stations c path).getLast (List.cons_ne_nil _ _)

/-- Two ways to come upon a nonterminal. -/
inductive Arrival where
  /-- It is not on the path yet. -/
  | first
  /-- It is on the path already. -/
  | again
deriving DecidableEq, Repr

/-- The arrival that an entry tells of, if any. -/
def ExpansionEntry.arrival? : ExpansionEntry α → Option Arrival
  | expanded _ => some .first
  | barren _ => some .first
  | revisited _ => some .again
  | alternative _ _ => none
  | join => none

/-- The line tells of an arrival of some kind. -/
def ExpansionLine.tells (a : Arrival) (line : ExpansionLine α) : Bool :=
  line.entry.arrival? = some a

section Tells

variable {a : Arrival} {margin : String} {c : Symbol} {r : α} {last : Bool}

@[simp]
theorem tells_expanded : (⟨margin, .expanded c⟩ : ExpansionLine α).tells a = decide (a = .first) := by
  cases a <;> rfl

@[simp]
theorem tells_barren : (⟨margin, .barren c⟩ : ExpansionLine α).tells a = decide (a = .first) := by
  cases a <;> rfl

@[simp]
theorem tells_revisited : (⟨margin, .revisited c⟩ : ExpansionLine α).tells a = decide (a = .again) := by
  cases a <;> rfl

@[simp]
theorem tells_alternative : (⟨margin, .alternative r last⟩ : ExpansionLine α).tells a = false := rfl

@[simp]
theorem tells_join : (⟨margin, .join⟩ : ExpansionLine α).tells a = false := rfl

end Tells

section Stations

variable {c d : Symbol} {e : Nat × Symbol} {path p q : LabelledPath}

@[simp]
theorem stations_cons : stations c (e :: path) = c :: stations e.2 path := rfl

theorem stations_append : stations c (p ++ q) = stations c p ++ q.map Prod.snd := by
  simp [stations]

@[simp]
theorem endpoint_nil : endpoint c [] = c := rfl

@[simp]
theorem endpoint_cons : endpoint c (e :: path) = endpoint e.2 path := rfl

@[simp]
theorem endpoint_concat : endpoint c (path ++ [e]) = e.2 := by
  simp [endpoint, stations]

theorem endpoint_mem_stations : endpoint c path ∈ stations c path :=
  List.getLast_mem _

@[simp]
theorem dropLast_stations_cons :
    (stations c (e :: path)).dropLast = c :: (stations e.2 path).dropLast := rfl

/-- A path comes to each of its stations. -/
theorem exists_append_of_mem_stations (h : d ∈ stations c path) :
    ∃ p q, path = p ++ q ∧ endpoint c p = d := by
  induction path generalizing c with
  | nil => exact ⟨[], [], rfl, (List.mem_singleton.mp h).symm⟩
  | cons e path ih =>
    rcases List.mem_cons.mp h with rfl | h
    · exact ⟨[], e :: path, rfl, rfl⟩
    · obtain ⟨p, q, rfl, hp⟩ := ih h
      exact ⟨e :: p, q, rfl, hp⟩

end Stations

/-- The flag for the last element is set by its place. -/
theorem markLast_eq_map_zipIdx (xs : List α) :
    markLast xs = xs.zipIdx.map fun (x, i) => (x, decide (i + 1 = xs.length)) := by
  have hfrom : ∀ k, markLast xs = (xs.zipIdx k).map fun (x, i) => (x, decide (i + 1 = k + xs.length)) := by
    fun_induction markLast xs with
    | case1 => intro k; rfl
    | case2 x => intro k; simp
    | case3 x y zs ih =>
      intro k
      rw [ih (k + 1), List.zipIdx_cons, List.map_cons]
      simp [Nat.add_comm, Nat.add_left_comm]
  simpa using hfrom 0

namespace Grammar

variable [Spelling α] {g : Grammar α} {a : Arrival} {fresh : List Symbol} {c d : Symbol} {e : Nat × Symbol}
  {path p q : LabelledPath}

/-! ## The graph -/

/-- A nonterminal occurs in the alternative at some place. -/
def Occurs (g : Grammar α) (c : Symbol) (e : Nat × Symbol) : Prop :=
  ∃ r, (g.alternatives c)[e.1]? = some r ∧ e.2 ∈ Spelling.word r ∧ e.2 ∈ g.vocabulary.nonterminals

/-- A labelled path goes along occurrences. -/
def IsPath (g : Grammar α) : Symbol → LabelledPath → Prop
  | _, [] => True
  | c, e :: path => g.Occurs c e ∧ g.IsPath e.2 path

/-- A nonterminal leads to another in some alternative. -/
def Leads (g : Grammar α) (c d : Symbol) : Prop :=
  ∃ r ∈ g.alternatives c, d ∈ Spelling.word r ∧ d ∈ g.vocabulary.nonterminals

/-- Every nonterminal can be reached from itself, and over any number of others. -/
def Reachable (g : Grammar α) : Symbol → Symbol → Prop :=
  Relation.ReflTransGen g.Leads

theorem leads_iff_exists_occurs : g.Leads c d ↔ ∃ i, g.Occurs c (i, d) := by
  simp only [Leads, Occurs, List.mem_iff_getElem?]
  constructor
  · rintro ⟨r, ⟨i, hr⟩, hd⟩
    exact ⟨i, r, hr, hd⟩
  · rintro ⟨i, r, hr, hd⟩
    exact ⟨r, ⟨i, hr⟩, hd⟩

theorem isPath_append : g.IsPath c (p ++ q) ↔ g.IsPath c p ∧ g.IsPath (endpoint c p) q := by
  induction p generalizing c with
  | nil => simp [IsPath]
  | cons e p ih => simp [IsPath, ih, and_assoc]

theorem IsPath.mem_nonterminals (h : g.IsPath c path) (hc : c ∈ g.vocabulary.nonterminals) :
    ∀ d ∈ stations c path, d ∈ g.vocabulary.nonterminals := by
  induction path generalizing c with
  | nil => simpa [stations] using hc
  | cons e path ih =>
    obtain ⟨⟨r, -, -, he⟩, htail⟩ := h
    exact List.forall_mem_cons.mpr ⟨hc, ih htail he⟩

theorem IsPath.reachable (h : g.IsPath c path) : g.Reachable c (endpoint c path) := by
  induction path generalizing c with
  | nil => exact .refl
  | cons e path ih => exact .head (leads_iff_exists_occurs.mpr ⟨e.1, h.1⟩) (ih h.2)

/-- **What can be reached is reached on a simple path.** -/
theorem reachable_iff_exists_isPath :
    g.Reachable c d ↔ ∃ path, g.IsPath c path ∧ (stations c path).Nodup ∧ endpoint c path = d := by
  constructor
  · intro h
    induction h with
    | refl => exact ⟨[], trivial, List.nodup_singleton c, rfl⟩
    | @tail b d _ hleads ih =>
      obtain ⟨path, hpath, hnodup, rfl⟩ := ih
      by_cases hd : d ∈ stations c path
      · -- The path came there before, and may end there.
        obtain ⟨p, q, rfl, hend⟩ := exists_append_of_mem_stations hd
        rw [stations_append, List.nodup_append] at hnodup
        exact ⟨p, (isPath_append.mp hpath).1, hnodup.1, hend⟩
      · obtain ⟨i, hoccurs⟩ := leads_iff_exists_occurs.mp hleads
        refine ⟨path ++ [(i, d)], isPath_append.mpr ⟨hpath, hoccurs, trivial⟩, ?_, endpoint_concat⟩
        rw [stations_append, List.map_singleton]
        refine List.nodup_append.mpr ⟨hnodup, List.nodup_singleton d, ?_⟩
        rintro _ hb _ hb' rfl
        obtain rfl := List.mem_singleton.mp hb'
        exact hd hb
  · rintro ⟨path, hpath, -, rfl⟩
    exact hpath.reachable

/-- The edges that leave a nonterminal, in the order of the drawing. -/
def edges (g : Grammar α) (c : Symbol) : List (Nat × Symbol) :=
  (g.alternatives c).zipIdx.flatMap fun (r, i) => (g.nonterminalsOf r).map (i, ·)

theorem mem_edges : e ∈ g.edges c ↔ g.Occurs c e := by
  obtain ⟨i, d⟩ := e
  simp [edges, Occurs, nonterminalsOf, List.mem_zipIdx_iff_getElem?]

theorem nodup_edges (g : Grammar α) (c : Symbol) : (g.edges c).Nodup := by
  rw [edges, List.nodup_flatMap]
  constructor
  · rintro ⟨r, i⟩ -
    exact (nodup_eraseDups _).map fun d d' heq => congrArg Prod.snd heq
  · -- The places of two alternatives differ.
    have hplaces : ((g.alternatives c).zipIdx.map Prod.snd).Nodup := by
      rw [List.zipIdx_map_snd]
      exact List.nodup_range'
    refine (List.pairwise_map.mp hplaces).imp ?_
    rintro ⟨r, i⟩ ⟨r', i'⟩ hne e he he'
    obtain ⟨d, -, rfl⟩ := List.mem_map.mp he
    obtain ⟨d', -, heq⟩ := List.mem_map.mp he'
    exact hne (congrArg Prod.fst heq).symm

/-! ## The paths that the drawing goes along -/

/-- The paths on which the drawing comes upon a nonterminal in some way, in order; `fresh` holds the nonterminals
that do not lie above. -/
def ways (g : Grammar α) (a : Arrival) (fresh : List Symbol) (c : Symbol) : List LabelledPath :=
  if _h : c ∈ fresh then
    (if a = .first then [[]] else []) ++
      (g.edges c).flatMap fun e => (g.ways a (fresh.erase c) e.2).map (e :: ·)
  else
    if a = .again then [[]] else []
termination_by fresh.length
decreasing_by
  have := List.length_pos_of_mem _h
  rw [List.length_erase_of_mem _h]
  omega

theorem nil_mem_ways : [] ∈ g.ways a fresh c ↔ (c ∈ fresh ↔ a = .first) := by
  rw [ways]
  cases a with
  | first => by_cases hc : c ∈ fresh <;> simp [hc]
  | again => by_cases hc : c ∈ fresh <;> simp [hc]

theorem cons_mem_ways :
    e :: path ∈ g.ways a fresh c ↔ c ∈ fresh ∧ g.Occurs c e ∧ path ∈ g.ways a (fresh.erase c) e.2 := by
  have hnil : ∀ p : Prop, [Decidable p] → e :: path ∉ if p then [([] : LabelledPath)] else [] := by
    intro p _
    split <;> simp
  rw [ways]
  by_cases hc : c ∈ fresh
  · rw [dif_pos hc, List.mem_append, or_iff_right (hnil _), List.mem_flatMap, and_iff_right hc]
    simp [mem_edges]
  · rw [dif_neg hc]
    exact iff_of_false (hnil _) fun h => hc h.1

/-- **Nonterminals are expanded on simple paths.** -/
theorem mem_ways_first (hfresh : fresh.Nodup) : path ∈ g.ways .first fresh c ↔
    g.IsPath c path ∧ (stations c path).Nodup ∧ ∀ d ∈ stations c path, d ∈ fresh := by
  induction path generalizing fresh c with
  | nil => simp [nil_mem_ways, IsPath, stations]
  | cons e path ih =>
    rw [cons_mem_ways, ih (hfresh.erase c), IsPath, stations_cons, List.nodup_cons, List.forall_mem_cons]
    simp only [hfresh.mem_erase_iff]
    grind

/-- **Paths that have come back are not continued.** -/
theorem mem_ways_again (hfresh : fresh.Nodup) : path ∈ g.ways .again fresh c ↔
    g.IsPath c path ∧ (stations c path).dropLast.Nodup ∧ (∀ d ∈ (stations c path).dropLast, d ∈ fresh) ∧
      (endpoint c path ∈ fresh → endpoint c path ∈ (stations c path).dropLast) := by
  induction path generalizing fresh c with
  | nil => simp [nil_mem_ways, IsPath, stations]
  | cons e path ih =>
    rw [cons_mem_ways, ih (hfresh.erase c), IsPath, dropLast_stations_cons, endpoint_cons, List.nodup_cons,
      List.forall_mem_cons, List.mem_cons]
    simp only [hfresh.mem_erase_iff]
    grind

/-- No path is gone along twice. -/
theorem nodup_ways (g : Grammar α) (a : Arrival) (fresh : List Symbol) (c : Symbol) :
    (g.ways a fresh c).Nodup := by
  fun_induction ways g a fresh c with
  | case1 fresh c hc ih =>
    refine List.nodup_append.mpr ⟨by split <;> simp, List.nodup_flatMap.mpr ⟨?_, ?_⟩, ?_⟩
    · intro e _
      exact (ih e).map List.cons_injective
    · -- Paths that begin with different edges differ.
      refine (g.nodup_edges c).imp ?_
      intro e e' hne path hpath hpath'
      obtain ⟨p, -, rfl⟩ := List.mem_map.mp hpath
      obtain ⟨p', -, heq⟩ := List.mem_map.mp hpath'
      exact hne (List.cons_eq_cons.mp heq).1.symm
    · rintro p hp _ hcons rfl
      obtain ⟨e, -, hcons⟩ := List.mem_flatMap.mp hcons
      obtain ⟨p', -, rfl⟩ := List.mem_map.mp hcons
      split at hp <;> simp at hp
  | case2 => exact List.nodup_singleton _
  | case3 => exact List.nodup_nil

/-! ## The lines that stand for them -/

/-- How far the end of a path is moved to the right: by one piece for each of its edges, with a rule drawn
through it unless the edge leaves from the last alternative. -/
def marginAlong (g : Grammar α) : Symbol → LabelledPath → String
  | _, [] => ""
  | c, e :: path =>
    (if e.1 + 1 = (g.alternatives c).length then "      " else "│  │  ") ++ g.marginAlong e.2 path

/-- The entry for a nonterminal that is come upon in some way. -/
def visitEntry (g : Grammar α) : Arrival → Symbol → ExpansionEntry α
  | .first, c => if g.alternatives c = [] then .barren c else .expanded c
  | .again, c => .revisited c

/-- The line that stands for a path. -/
def visitLine (g : Grammar α) (a : Arrival) (margin : String) (c : Symbol) (path : LabelledPath) :
    ExpansionLine α :=
  ⟨margin ++ g.marginAlong c path, g.visitEntry a (endpoint c path)⟩

theorem visitLine_nil (g : Grammar α) (a : Arrival) (margin : String) (c : Symbol) :
    g.visitLine a margin c [] = ⟨margin, g.visitEntry a c⟩ := by
  simp [visitLine, marginAlong]

theorem visitLine_cons (g : Grammar α) (a : Arrival) (margin : String) (c : Symbol) (e : Nat × Symbol)
    (path : LabelledPath) : g.visitLine a margin c (e :: path) =
      g.visitLine a (marginBelow margin (decide (e.1 + 1 = (g.alternatives c).length))) e.2 path := by
  rw [visitLine, visitLine, marginAlong, marginBelow]
  by_cases hlast : e.1 + 1 = (g.alternatives c).length <;> simp [hlast, String.append_assoc]

/-- **The lines of a drawing**: those that tell of an arrival stand for the paths, one for each, in order. -/
theorem filter_expansion (g : Grammar α) (a : Arrival) (fresh : List Symbol) (margin : String) (c : Symbol) :
    (g.expansion fresh margin c).filter (·.tells a) = (g.ways a fresh c).map (g.visitLine a margin c) := by
  fun_induction expansion g fresh margin c with
  | case1 fresh margin c hc hnone =>
    rw [ways, dif_pos hc, edges, hnone]
    cases a <;> simp [visitLine_nil, visitEntry, hnone]
  | case2 fresh margin c hc hsome ih =>
    have hheader : ∀ below, (if (⟨margin, .expanded c⟩ : ExpansionLine α).tells a then
        ⟨margin, .expanded c⟩ :: below else below) =
          (if a = .first then [([] : LabelledPath)] else []).map (g.visitLine a margin c) ++ below := by
      intro below
      cases a <;> simp [visitLine_nil, visitEntry, hsome]
    rw [ways, dif_pos hc, List.map_append, List.map_flatMap, List.filter_cons, hheader, List.filter_flatMap,
      edges, markLast_eq_map_zipIdx, List.flatMap_map, List.flatMap_assoc]
    refine congrArg (_ ++ ·) (List.flatMap_congr ?_)
    rintro ⟨r, i⟩ -
    -- The lines of an alternative are those of the edges that it gives.
    simp only [List.filter_cons, List.filter_flatMap, tells_alternative, tells_join, Bool.false_eq_true, if_false,
      ih, List.flatMap_map, List.map_map, Function.comp_def, visitLine_cons]
  | case3 fresh margin c hc =>
    rw [ways, dif_neg hc]
    cases a <;> simp [visitLine_nil, visitEntry]

/-! ## What the drawing shows -/

theorem nodup_nonterminals (g : Grammar α) : g.vocabulary.nonterminals.toList.Nodup :=
  g.vocabulary.nonterminals.sorted.imp fun h => Char.ne_of_lt h

theorem IsPath.mem_toList (h : g.IsPath g.start path) :
    ∀ d ∈ stations g.start path, d ∈ g.vocabulary.nonterminals.toList := by
  intro d hd
  exact Alphabet.mem_toList.mpr (h.mem_nonterminals g.start_mem d hd)

/-- A simple path has fewer steps than there are nonterminals. -/
theorem IsPath.length_lt (h : g.IsPath g.start path) (hnodup : (stations g.start path).Nodup) :
    path.length < g.vocabulary.nonterminals.toList.length := by
  have hle := (hnodup.subperm h.mem_toList).length_le
  rw [stations, List.length_cons, List.length_map] at hle
  omega

theorem mem_simple_iff : path ∈ g.ways .first g.vocabulary.nonterminals.toList g.start ↔
    g.IsPath g.start path ∧ (stations g.start path).Nodup := by
  rw [mem_ways_first g.nodup_nonterminals]
  constructor
  · rintro ⟨hpath, hnodup, -⟩
    exact ⟨hpath, hnodup⟩
  · rintro ⟨hpath, hnodup⟩
    exact ⟨hpath, hnodup, hpath.mem_toList⟩

theorem mem_closed_iff : path ∈ g.ways .again g.vocabulary.nonterminals.toList g.start ↔
    g.IsPath g.start path ∧ (stations g.start path).dropLast.Nodup ∧
      endpoint g.start path ∈ (stations g.start path).dropLast := by
  rw [mem_ways_again g.nodup_nonterminals]
  constructor
  · rintro ⟨hpath, hnodup, -, hend⟩
    exact ⟨hpath, hnodup, hend (hpath.mem_toList _ endpoint_mem_stations)⟩
  · rintro ⟨hpath, hnodup, hend⟩
    exact ⟨hpath, hnodup, fun d hd => hpath.mem_toList d (List.dropLast_subset _ hd), fun _ => hend⟩

theorem filter_treeLines (g : Grammar α) (a : Arrival) : g.treeLines.filter (·.tells a) =
    (g.ways a g.vocabulary.nonterminals.toList g.start).map (g.visitLine a "" g.start) :=
  g.filter_expansion a _ "" g.start

/-- **What is expanded is what can be reached.** -/
theorem expanded_iff_reachable :
    (∃ line ∈ g.treeLines, line.entry = .expanded c ∨ line.entry = .barren c) ↔ g.Reachable g.start c := by
  rw [reachable_iff_exists_isPath]
  constructor
  · rintro ⟨⟨margin, entry⟩, hline, hentry⟩
    have htells : (⟨margin, entry⟩ : ExpansionLine α).tells .first = true := by
      rcases hentry with rfl | rfl <;> simp
    have hfiltered := List.mem_filter.mpr ⟨hline, htells⟩
    rw [filter_treeLines] at hfiltered
    obtain ⟨path, hpath, heq⟩ := List.mem_map.mp hfiltered
    obtain ⟨hpath, hnodup⟩ := mem_simple_iff.mp hpath
    refine ⟨path, hpath, hnodup, ?_⟩
    have hvisit : g.visitEntry .first (endpoint g.start path) = entry := congrArg ExpansionLine.entry heq
    rw [← hvisit, visitEntry] at hentry
    split at hentry <;> simpa using hentry
  · rintro ⟨path, hpath, hnodup, rfl⟩
    have hline : g.visitLine .first "" g.start path ∈ g.treeLines.filter (·.tells .first) := by
      rw [filter_treeLines]
      exact List.mem_map.mpr ⟨path, mem_simple_iff.mpr ⟨hpath, hnodup⟩, rfl⟩
    refine ⟨_, (List.mem_filter.mp hline).1, ?_⟩
    rw [visitLine, visitEntry]
    split <;> simp

/-- What the line for a path prints: the nonterminal at its end, and a remark if it is not expanded there. -/
theorem text_visitLine_first (g : Grammar α) (path : LabelledPath) :
    (g.visitLine .first "" g.start path).text = g.marginAlong g.start path ++
      if g.alternatives (endpoint g.start path) = [] then
        "└─ " ++ (endpoint g.start path).toString ++ " (no productions)"
      else
        "├─ " ++ (endpoint g.start path).toString := by
  rw [ExpansionLine.text, visitLine, visitEntry, String.empty_append]
  split <;> rfl

theorem text_visitLine_again (g : Grammar α) (path : LabelledPath) :
    (g.visitLine .again "" g.start path).text = g.marginAlong g.start path ++
      ("├─ " ++ (endpoint g.start path).toString ++ " (already visited)") := by
  rw [ExpansionLine.text, visitLine, visitEntry, String.empty_append]
  rfl

/-- Only alternatives of the grammar are drawn. -/
theorem of_alternative_mem_expansion {margin margin' : String} {r : α} {last : Bool}
    (h : ⟨margin', .alternative r last⟩ ∈ g.expansion fresh margin c) : ∃ d, r ∈ g.alternatives d := by
  fun_induction expansion g fresh margin c with
  | case1 => simp at h
  | case2 fresh margin c hc hsome ih =>
    simp only [List.mem_cons, List.mem_flatMap, markLast_eq_map_zipIdx, List.mem_map, Prod.exists] at h
    -- The line is the header, or it belongs to one of the alternatives: its own line or a line further below.
    obtain h | ⟨r', last', ⟨r'', i, hr', heq⟩, h⟩ := h
    · cases h
    cases heq
    obtain h | ⟨d, -, h | h⟩ := h
    · cases h
      exact ⟨c, List.mem_of_getElem? (List.mem_zipIdx_iff_getElem?.mp hr')⟩
    · cases h
    · exact ih _ _ h
  | case3 => simp at h

/-- A line that stands for no path prints an alternative, or joins one to what is drawn below it. -/
theorem text_of_tells_eq_false {line : ExpansionLine α} (hline : line ∈ g.treeLines)
    (h : ∀ a, line.tells a = false) :
    line.text = line.margin ++ "│" ∨ ∃ c, ∃ r ∈ g.alternatives c, ∃ last, line.text = line.margin ++
      ("│  " ++ (if last = true then "└─ " else "├─ ") ++ Spelling.shown r ++
        if Spelling.isMark r then " (empty)" else "") := by
  obtain ⟨margin, entry⟩ := line
  cases entry with
  | expanded c => simpa using h .first
  | barren c => simpa using h .first
  | revisited c => simpa using h .again
  | alternative r last =>
    obtain ⟨c, hr⟩ := of_alternative_mem_expansion hline
    exact Or.inr ⟨c, r, hr, last, rfl⟩
  | join => exact Or.inl rfl

/-- **The drawing visits the simple paths.**  Consider labelled paths from the start symbol.  Nonterminals are
expanded, or said to have no productions, once for each simple path; and they are said to be already visited once
for each path that is simple up to its last step, which comes back to a nonterminal on it.  In both cases the
lines stand for the paths in some order, and behind its margin a line prints the nonterminal at the end of its
path.  All other lines print alternatives or join them to what is below.  Simple paths are shorter than the list of
nonterminals, so the drawing comes to an end, and it expands the nonterminals that can be reached from the start
symbol, and no others. -/
theorem drawing_visits_simple_paths (g : Grammar α) :
    ∃ simple closed : List LabelledPath,
      g.productionTree = "\n".intercalate (g.treeLines.map ExpansionLine.text) ∧
      (g.treeLines.filter (·.tells .first) = simple.map (g.visitLine .first "" g.start) ∧
        (∀ path, (g.visitLine .first "" g.start path).text = g.marginAlong g.start path ++
          if g.alternatives (endpoint g.start path) = [] then
            "└─ " ++ (endpoint g.start path).toString ++ " (no productions)"
          else
            "├─ " ++ (endpoint g.start path).toString) ∧
        simple.Nodup ∧ ∀ path, path ∈ simple ↔ g.IsPath g.start path ∧ (stations g.start path).Nodup) ∧
      (g.treeLines.filter (·.tells .again) = closed.map (g.visitLine .again "" g.start) ∧
        (∀ path, (g.visitLine .again "" g.start path).text = g.marginAlong g.start path ++
          ("├─ " ++ (endpoint g.start path).toString ++ " (already visited)")) ∧
        closed.Nodup ∧ ∀ path, path ∈ closed ↔ g.IsPath g.start path ∧
          (stations g.start path).dropLast.Nodup ∧ endpoint g.start path ∈ (stations g.start path).dropLast) ∧
      (∀ line ∈ g.treeLines, (∀ a, line.tells a = false) →
        line.text = line.margin ++ "│" ∨ ∃ c, ∃ r ∈ g.alternatives c, ∃ last, line.text = line.margin ++
          ("│  " ++ (if last = true then "└─ " else "├─ ") ++ Spelling.shown r ++
            if Spelling.isMark r then " (empty)" else "")) ∧
      (∀ path ∈ simple, path.length < g.vocabulary.nonterminals.toList.length) ∧
      ∀ c, (∃ line ∈ g.treeLines, line.entry = .expanded c ∨ line.entry = .barren c) ↔
        g.Reachable g.start c := by
  refine ⟨_, _, rfl,
    ⟨g.filter_treeLines .first, g.text_visitLine_first, g.nodup_ways .first _ _, fun _ => mem_simple_iff⟩,
    ⟨g.filter_treeLines .again, g.text_visitLine_again, g.nodup_ways .again _ _, fun _ => mem_closed_iff⟩,
    fun _ => text_of_tells_eq_false, ?_, fun _ => expanded_iff_reachable⟩
  intro path hpath
  obtain ⟨hpath, hnodup⟩ := mem_simple_iff.mp hpath
  exact hpath.length_lt hnodup

/-- The start symbol comes back in its own alternative, and `A` has no productions. -/
def unfinished : Grammar :=
  (Grammar.ofRules "SA" "a" [("S", ["aSA", "ε"])] 'S').toOption.get rfl

theorem drawing_visits_simple_paths_unfinished :
    unfinished.productionTree = "\n".intercalate
      ["├─ S",
        "│  ├─ aSA",
        "│  │  │",
        "│  │  ├─ S (already visited)",
        "│  │  │",
        "│  │  └─ A (no productions)",
        "│  └─ ε (empty)"] ∧
    unfinished.Reachable 'S' 'A' := by
  obtain ⟨_, _, -, -, -, -, -, hreach⟩ := drawing_visits_simple_paths unfinished
  have hbarren : (unfinished.treeLines.any fun line => line.entry = .barren 'A') = true := by cbv
  obtain ⟨line, hline, hentry⟩ := List.any_eq_true.mp hbarren
  refine ⟨by cbv, (hreach 'A').mp ⟨line, hline, Or.inr (of_decide_eq_true hentry)⟩⟩

end Grammar

end PhraseStructure
