import PhraseStructure.Proofs.Persistence
import Mathlib.Data.List.Forall2
import Mathlib.Data.List.Induction

/-!
# A grammar holds what was written, and nothing else

Rules may be written in any number of pieces: a left side may come back later with more alternatives, and an
alternative may be repeated within one rule or across several.  Construction reads the words of each rule,
drops repetitions, and merges the rules of each left side.  Nothing is lost on the way and nothing is added:
the left sides of the grammar are those of the rules, each where it appeared first (`lefts_merge`), and the
alternatives of a left side are all that any rule gives for it, each where it appeared first
(`alternatives_of_mem_merge`).

Merging changes entries that stand in the middle of the list.  What it does is easiest to see from one left
side at a time: `offered` collects the alternatives of a left side from a whole list of productions, and one
more production extends that collection at its end, wherever its entry stands (`offered_mergeInto`).

## Main definitions

* `offered`: the alternatives that some productions offer for a left side.
* `Description.rules`: the words of a description, rule by rule.
* `Grammar.WellFormed`: the laws of a grammar.
* `Grammar.MadeFrom`: a grammar holds exactly what a description says.

## Main results

* `lefts_merge`, `alternatives_of_mem_merge`: what merging keeps, and in which order.
* `Description.build_cases`, `Grammar.assemble_cases`: how construction can end.
* `Grammar.constructed_as_written`: every grammar is well-formed and holds exactly what was written.
-/

namespace PhraseStructure

/-! ## First appearances -/

section FirstAppearance

variable {α : Type} [DecidableEq α] [BEq α] [LawfulBEq α]

/-- Adding elements one by one, each unless it is there already, keeps first appearances. -/
theorem foldl_appendNew_eq_eraseDups (xs : List α) : xs.foldl appendNew [] = xs.eraseDups := by
  induction xs using List.reverseRecOn with
  | nil => rfl
  | append_singleton xs x ih =>
    rw [List.foldl_append, ih, List.eraseDups_append, List.foldl_cons, List.foldl_nil, appendNew]
    by_cases hx : x ∈ xs
    · simp [hx, List.removeAll]
    · simp [hx, List.removeAll, List.eraseDups_cons]

theorem nodup_eraseDups (xs : List α) : xs.eraseDups.Nodup := by
  rw [← foldl_appendNew_eq_eraseDups]
  exact nodup_foldl_appendNew .nil

/-- Repetitions that are dropped early would have been dropped later. -/
theorem foldl_appendNew_eraseDups (xs ys : List α) :
    ys.eraseDups.foldl appendNew xs = ys.foldl appendNew xs := by
  rw [← foldl_appendNew_eq_eraseDups]
  induction ys using List.reverseRecOn with
  | nil => rfl
  | append_singleton ys y ih =>
    rw [List.foldl_append, List.foldl_append, List.foldl_cons, List.foldl_nil, List.foldl_cons,
      List.foldl_nil, ← ih]
    by_cases hy : y ∈ ys.foldl appendNew []
    · -- The last element is a repetition, in the short list and in the long one.
      have hlong : y ∈ (ys.foldl appendNew []).foldl appendNew xs :=
        mem_foldl_appendNew.mpr (Or.inr hy)
      rw [appendNew, if_pos hy, appendNew, if_pos hlong]
    · rw [appendNew, if_neg hy, List.foldl_append, List.foldl_cons, List.foldl_nil]

end FirstAppearance

/-! ## Merging, one left side at a time -/

/-- The alternatives that some productions offer for a left side, in order. -/
def offered (ps : List Production) (l : Word) : List Word :=
  (ps.filter fun p => p.left = l).flatMap (·.alternatives)

theorem offered_cons (p : Production) (ps : List Production) (l : Word) :
    offered (p :: ps) l = if p.left = l then p.alternatives ++ offered ps l else offered ps l := by
  by_cases h : p.left = l
  · simp [offered, h]
  · simp [offered, h]

theorem offered_eq_nil {ps : List Production} {l : Word} (h : l ∉ ps.map (·.left)) :
    offered ps l = [] := by
  induction ps with
  | nil => rfl
  | cons p ps ih =>
    rw [List.map_cons, List.mem_cons, not_or] at h
    rw [offered_cons, if_neg (Ne.symm h.1), ih h.2]

/-- Where no left side is shared, the alternatives offered for a left side are those of its production. -/
theorem offered_left {ps : List Production} (hnodup : (ps.map (·.left)).Nodup) {p : Production}
    (hp : p ∈ ps) : offered ps p.left = p.alternatives := by
  induction ps with
  | nil => cases hp
  | cons q ps ih =>
    obtain ⟨hq, hps⟩ := List.nodup_cons.mp hnodup
    rw [offered_cons]
    rcases List.mem_cons.mp hp with rfl | hp
    · rw [if_pos rfl, offered_eq_nil hq, List.append_nil]
    · have hne : q.left ≠ p.left := by
        intro heq
        exact hq (List.mem_map.mpr ⟨p, hp, heq.symm⟩)
      rw [if_neg hne, ih hps hp]

theorem lefts_mergeInto (qs : List Production) (p : Production) :
    (mergeInto qs p).map (·.left) = appendNew (qs.map (·.left)) p.left := by
  induction qs with
  | nil => simp [mergeInto, appendNew]
  | cons q qs ih =>
    rw [mergeInto]
    by_cases h : q.left = p.left
    · simp [h, appendNew, Production.extend]
    · rw [if_neg h, List.map_cons, ih, List.map_cons, appendNew, appendNew]
      by_cases hmem : p.left ∈ qs.map (·.left)
      · rw [if_pos hmem, if_pos (List.mem_cons_of_mem _ hmem)]
      · rw [if_neg hmem, if_neg, List.cons_append]
        rw [List.mem_cons, not_or]
        exact ⟨Ne.symm h, hmem⟩

/-- **Left sides keep the order of their first appearance.** -/
theorem lefts_merge (ps : List Production) :
    (merge ps).map (·.left) = (ps.map (·.left)).eraseDups := by
  rw [← foldl_appendNew_eq_eraseDups, merge]
  induction ps using List.reverseRecOn with
  | nil => rfl
  | append_singleton ps p ih =>
    rw [List.foldl_append, List.map_append, List.foldl_append, ← ih]
    exact lefts_mergeInto _ p

/-- **One more production** extends what is offered for its left side at the end, and nothing else. -/
theorem offered_mergeInto {qs : List Production} (hnodup : (qs.map (·.left)).Nodup) (p : Production)
    (l : Word) :
    offered (mergeInto qs p) l =
      if p.left = l then p.alternatives.foldl appendNew (offered qs l) else offered qs l := by
  induction qs with
  | nil =>
    have hfresh : p.alternatives.foldl appendNew [] = p.alternatives :=
      foldl_appendNew_of_nodup p.nodup
    rw [mergeInto, offered_cons, show offered [] l = [] from rfl, List.append_nil, hfresh]
  | cons q qs ih =>
    obtain ⟨hq, hqs⟩ := List.nodup_cons.mp hnodup
    rw [mergeInto]
    by_cases hqp : q.left = p.left
    · rw [if_pos hqp, offered_cons, offered_cons, show (q.extend p.alternatives).left = q.left from rfl,
        hqp]
      by_cases hl : p.left = l
      · -- The entry with this left side is the only one, so that its end is the end of what is offered.
        have hrest : offered qs l = [] := offered_eq_nil (hl ▸ hqp ▸ hq)
        rw [if_pos hl, if_pos hl, if_pos hl, hrest, List.append_nil, List.append_nil, Production.extend]
      · rw [if_neg hl, if_neg hl, if_neg hl]
    · rw [if_neg hqp, offered_cons, offered_cons, ih hqs]
      by_cases hl : q.left = l
      · rw [if_pos hl, if_pos hl, if_neg (fun h => hqp (hl.trans h.symm)),
          if_neg (fun h => hqp (hl.trans h.symm))]
      · rw [if_neg hl, if_neg hl]

theorem offered_foldl_mergeInto {qs : List Production} (hnodup : (qs.map (·.left)).Nodup)
    (ps : List Production) (l : Word) :
    offered (ps.foldl mergeInto qs) l = (offered ps l).foldl appendNew (offered qs l) := by
  induction ps generalizing qs with
  | nil => rfl
  | cons p ps ih =>
    rw [List.foldl_cons, ih (nodup_left_mergeInto hnodup), offered_mergeInto hnodup, offered_cons]
    by_cases hl : p.left = l
    · rw [if_pos hl, if_pos hl, List.foldl_append]
    · rw [if_neg hl, if_neg hl]

/-- **Alternatives keep the order of their first appearance**: a merged production has all alternatives that
any production offers for its left side. -/
theorem alternatives_of_mem_merge {ps : List Production} {p : Production} (hp : p ∈ merge ps) :
    p.alternatives = (offered ps p.left).eraseDups := by
  rw [← offered_left (nodup_left_merge ps) hp, merge, offered_foldl_mergeInto (by simp),
    show offered [] p.left = [] from rfl, foldl_appendNew_eq_eraseDups]

/-! ## Reading one after another -/

section MapM

variable {ε α β : Type} {f : α → Except ε β} {xs : List α}

theorem forall₂_of_mapM_eq_ok {ys : List β} (h : xs.mapM f = .ok ys) :
    List.Forall₂ (fun x y => f x = .ok y) xs ys := by
  induction xs generalizing ys with
  | nil =>
    cases h
    exact .nil
  | cons x xs ih =>
    rw [List.mapM_cons] at h
    cases hx : f x with
    | error e => simp [hx, bind, Except.bind] at h
    | ok y =>
      cases hxs : xs.mapM f with
      | error e => simp [hx, hxs, bind, Except.bind] at h
      | ok ys' =>
        simp only [hx, hxs, bind, Except.bind, pure, Except.pure, Except.ok.injEq] at h
        subst h
        exact .cons hx (ih hxs)

/-- What stops the reading is the fault of some element. -/
theorem exists_of_mapM_eq_error {e : ε} (h : xs.mapM f = .error e) : ∃ x ∈ xs, f x = .error e := by
  induction xs with
  | nil => cases h
  | cons x xs ih =>
    rw [List.mapM_cons] at h
    cases hx : f x with
    | error e' =>
      simp only [hx, bind, Except.bind, Except.error.injEq] at h
      exact ⟨x, List.mem_cons_self, by rw [hx, h]⟩
    | ok y =>
      cases hxs : xs.mapM f with
      | error e' =>
        simp only [hx, hxs, bind, Except.bind, Except.error.injEq] at h
        obtain ⟨x', hx', hfault⟩ := ih (by rw [hxs, h])
        exact ⟨x', List.mem_cons_of_mem x hx', hfault⟩
      | ok ys => simp [hx, hxs, bind, Except.bind, pure, Except.pure] at h

end MapM

theorem symbolOf?_eq_some_iff {name : String} {c : Symbol} :
    symbolOf? name = some c ↔ name = String.singleton c := by
  constructor
  · intro h
    unfold symbolOf? at h
    split at h
    · next a ha =>
      cases h
      rw [← String.toList_inj, ha, String.toList_singleton]
    · cases h
  · rintro rfl
    exact symbolOf?_singleton c

/-- Names that can be read are the spellings of the symbols read. -/
theorem eq_map_of_mapM_symbolOf {names : List String} {cs : List Symbol}
    (h : names.mapM symbolOf = .ok cs) : names = cs.map String.singleton := by
  have hall := forall₂_of_mapM_eq_ok h
  clear h
  induction hall with
  | nil => rfl
  | @cons name c names cs hname _ ih =>
    unfold symbolOf at hname
    split at hname
    · next c' hc' =>
      cases hname
      rw [List.map_cons, ← ih, symbolOf?_eq_some_iff.mp hc']
    · cases hname

theorem of_symbolOf_eq_error {name : String} {fault : Fault} (h : symbolOf name = .error fault) :
    symbolOf? name = none ∧ fault = .notOneSymbol name := by
  unfold symbolOf at h
  split at h
  · cases h
  · next hnone =>
    cases h
    exact ⟨hnone, rfl⟩

namespace Production

variable {left : String} {alternatives : List String}

theorem of_ofText_eq_ok {p : Production} (h : ofText left alternatives = .ok p) :
    p.left = Word.read left ∧ p.alternatives = (alternatives.map Word.read).eraseDups := by
  unfold ofText make at h
  split at h
  · cases h
  · split at h
    · cases h
    · cases h
      exact ⟨rfl, foldl_appendNew_eq_eraseDups _⟩

theorem of_ofText_eq_error {fault : Fault} (h : ofText left alternatives = .error fault) :
    fault = .emptyLeft ∨ fault = .noAlternatives (Word.read left) := by
  unfold ofText make at h
  split at h
  · cases h
    exact Or.inl rfl
  · split at h
    · cases h
      exact Or.inr rfl
    · cases h

end Production

/-! ## What was written -/

namespace Description

variable {d : Description} {ns ts : List Symbol} {ps : List Production} {start : Symbol}

/-- The words of a description, rule by rule; `""` and `"ε"` both stand for the empty word. -/
def rules (d : Description) : List (Word × List Word) :=
  d.productions.map fun rule => (Word.read rule.1, rule.2.map Word.read)

/-- The symbols, productions and start symbol that are read from a description. -/
structure Read (d : Description) (ns ts : List Symbol) (ps : List Production) (start : Symbol) :
    Prop where
  nonterminals : d.nonterminals = ns.map String.singleton
  terminals : d.terminals = ts.map String.singleton
  start_eq : d.start = String.singleton start
  productions : List.Forall₂ (fun rule p => Production.ofText rule.1 rule.2 = .ok p) d.productions ps

/-- Faults that are noticed while a description is read. -/
inductive Unreadable (d : Description) : Fault → Prop where
  | name {name : String} : name ∈ d.nonterminals ++ d.terminals → symbolOf? name = none →
      Unreadable d (.notOneSymbol name)
  | start : symbolOf? d.start = none → Unreadable d (.start d.start)
  | rule {rule : String × List String} {fault : Fault} : rule ∈ d.productions →
      Production.ofText rule.1 rule.2 = .error fault → Unreadable d fault

/-- **Construction reads first**: it stops at something that cannot be read, or goes on with what was
read. -/
theorem build_cases (d : Description) :
    (∃ fault, d.Unreadable fault ∧ d.build = .error fault) ∨
      ∃ ns ts ps start, d.Read ns ts ps start ∧ d.build = Grammar.assemble ns ts ps start := by
  cases hns : d.nonterminals.mapM symbolOf with
  | error fault =>
    left
    obtain ⟨name, hname, hfault⟩ := exists_of_mapM_eq_error hns
    obtain ⟨hnone, rfl⟩ := of_symbolOf_eq_error hfault
    refine ⟨_, .name (List.mem_append_left _ hname) hnone, ?_⟩
    simp only [build, hns, bind, Except.bind]
  | ok ns =>
    cases hts : d.terminals.mapM symbolOf with
    | error fault =>
      left
      obtain ⟨name, hname, hfault⟩ := exists_of_mapM_eq_error hts
      obtain ⟨hnone, rfl⟩ := of_symbolOf_eq_error hfault
      refine ⟨_, .name (List.mem_append_right _ hname) hnone, ?_⟩
      simp only [build, hns, hts, bind, Except.bind]
    | ok ts =>
      cases hstart : symbolOf? d.start with
      | none =>
        left
        refine ⟨_, .start hstart, ?_⟩
        simp only [build, hns, hts, hstart, bind, Except.bind]
        rfl
      | some start =>
        simp only [build, hns, hts, hstart, bind, Except.bind]
        generalize hps : (List.mapM _ d.productions : Except Fault (List Production)) = read
        cases read with
        | error fault =>
          left
          obtain ⟨rule, hrule, hfault⟩ := exists_of_mapM_eq_error hps
          exact ⟨fault, .rule hrule hfault, rfl⟩
        | ok ps =>
          right
          exact ⟨ns, ts, ps, start, ⟨eq_map_of_mapM_symbolOf hns, eq_map_of_mapM_symbolOf hts,
            symbolOf?_eq_some_iff.mp hstart, forall₂_of_mapM_eq_ok hps⟩, rfl⟩

namespace Read

theorem map_left (h : d.Read ns ts ps start) : ps.map (·.left) = d.rules.map (·.1) := by
  obtain ⟨-, -, -, hall⟩ := h
  rw [rules, List.map_map]
  generalize d.productions = written at hall
  induction hall with
  | nil => rfl
  | cons hrule _ ih =>
    rw [List.map_cons, List.map_cons, ih, (Production.of_ofText_eq_ok hrule).1]
    rfl

/-- The productions offer what the rules give, up to repetitions. -/
theorem eraseDups_offered (h : d.Read ns ts ps start) (l : Word) :
    (offered ps l).eraseDups = ((d.rules.filter fun rule => rule.1 = l).flatMap (·.2)).eraseDups := by
  obtain ⟨-, -, -, hall⟩ := h
  rw [rules, ← foldl_appendNew_eq_eraseDups, ← foldl_appendNew_eq_eraseDups]
  generalize d.productions = written at hall
  -- The alternatives of the rules before make no difference, whatever they are.
  generalize ([] : List Word) = before
  induction hall generalizing before with
  | nil => rfl
  | @cons rule p rules ps hrule _ ih =>
    obtain ⟨hleft, halternatives⟩ := Production.of_ofText_eq_ok hrule
    rw [offered_cons, List.map_cons, List.filter_cons, hleft]
    by_cases hl : Word.read rule.1 = l
    · simp only [hl, if_true, decide_true, List.flatMap_cons, List.foldl_append]
      rw [halternatives, foldl_appendNew_eraseDups, ih]
    · simp only [hl, if_false, decide_false, Bool.false_eq_true]
      exact ih before

theorem lefts (h : d.Read ns ts ps start) :
    (merge ps).map (·.left) = (d.rules.map (·.1)).eraseDups := by
  rw [lefts_merge, h.map_left]

theorem alternatives (h : d.Read ns ts ps start) {p : Production} (hp : p ∈ merge ps) :
    p.alternatives = ((d.rules.filter fun rule => rule.1 = p.left).flatMap (·.2)).eraseDups := by
  rw [alternatives_of_mem_merge hp, h.eraseDups_offered]

/-- What may replace what after merging is what the rules say. -/
theorem mem_alternatives_iff (h : d.Read ns ts ps start) {l r : Word} :
    (∃ p ∈ merge ps, p.left = l ∧ r ∈ p.alternatives) ↔ ∃ rule ∈ d.rules, rule.1 = l ∧ r ∈ rule.2 := by
  constructor
  · rintro ⟨p, hp, rfl, hr⟩
    rw [h.alternatives hp, List.mem_eraseDups, List.mem_flatMap] at hr
    obtain ⟨rule, hrule, hr⟩ := hr
    obtain ⟨hmem, hleft⟩ := List.mem_filter.mp hrule
    exact ⟨rule, hmem, of_decide_eq_true hleft, hr⟩
  · rintro ⟨rule, hrule, rfl, hr⟩
    -- The left side of the rule has an entry, and the entry has every alternative given for it.
    have hleft : rule.1 ∈ (merge ps).map (·.left) := by
      rw [h.lefts, List.mem_eraseDups]
      exact List.mem_map_of_mem hrule
    obtain ⟨p, hp, hpleft⟩ := List.mem_map.mp hleft
    refine ⟨p, hp, hpleft, ?_⟩
    rw [h.alternatives hp, List.mem_eraseDups, List.mem_flatMap]
    exact ⟨rule, List.mem_filter.mpr ⟨hrule, by simp [hpleft]⟩, hr⟩

end Read

end Description

/-! ## Putting a grammar together -/

theorem Vocabulary.of_make_eq_ok {ns ts : List Symbol} {v : Vocabulary} (h : make ns ts = .ok v) :
    v.nonterminals = .ofList ns ∧ v.terminals = .ofList ts := by
  simp only [make] at h
  split at h
  · cases h
  · split at h
    · split at h
      · cases h
      · cases h
        exact ⟨rfl, rfl⟩
    · cases h

theorem Vocabulary.of_check_eq_error {v : Vocabulary} {w : Word} {fault : Fault}
    (h : v.check w = .error fault) : ∃ c ∈ w, v.isDeclared c = false ∧ fault = .undeclared c w := by
  unfold check at h
  split at h
  · next c hc =>
    cases h
    refine ⟨c, List.mem_of_find?_eq_some hc, ?_, rfl⟩
    simpa using List.find?_some hc
  · cases h

theorem exists_of_forM_eq_error {ε α : Type} {f : α → Except ε Unit} {xs : List α} {e : ε}
    (h : xs.forM f = .error e) : ∃ x ∈ xs, f x = .error e := by
  induction xs with
  | nil => cases h
  | cons x xs ih =>
    rw [List.forM] at h
    cases hx : f x with
    | error e' =>
      simp only [hx, bind, Except.bind, Except.error.injEq] at h
      exact ⟨x, List.mem_cons_self, by rw [hx, h]⟩
    | ok _ =>
      simp only [hx, bind, Except.bind] at h
      obtain ⟨x', hx', hfault⟩ := ih h
      exact ⟨x', List.mem_cons_of_mem x hx', hfault⟩

namespace Grammar

/-- Faults that are noticed while a grammar is put together. -/
inductive Unfit (ns ts : List Symbol) (ps : List Production) (start : Symbol) : Fault → Prop where
  | vocabulary {fault : VocabularyFault} : Vocabulary.make ns ts = .error fault →
      Unfit ns ts ps start (.vocabulary fault)
  | start {v : Vocabulary} : Vocabulary.make ns ts = .ok v → ¬ start ∈ v.nonterminals →
      Unfit ns ts ps start (.start (String.singleton start))
  | undeclared {v : Vocabulary} {p : Production} {w : Word} {c : Symbol} :
      Vocabulary.make ns ts = .ok v → p ∈ merge ps → w ∈ p.sides → c ∈ w →
      v.isDeclared c = false → Unfit ns ts ps start (.undeclared c w)

/-- A grammar that is put together consists of the vocabulary, the merged productions and the start
symbol. -/
theorem assemble_cases (ns ts : List Symbol) (ps : List Production) (start : Symbol) :
    (∃ fault, Unfit ns ts ps start fault ∧ assemble ns ts ps start = .error fault) ∨
      ∃ g, assemble ns ts ps start = .ok g ∧ Vocabulary.make ns ts = .ok g.vocabulary ∧
        g.productions = merge ps ∧ g.start = start := by
  cases hmake : Vocabulary.make ns ts with
  | error fault => exact Or.inl ⟨_, .vocabulary hmake, by rw [assemble, hmake]⟩
  | ok v =>
    rw [assemble, hmake]
    dsimp only
    by_cases hstart : start ∈ v.nonterminals
    · rw [dif_pos hstart]
      split
      · next fault hchecks =>
        left
        obtain ⟨p, hp, hcheck⟩ := exists_of_forM_eq_error hchecks
        obtain ⟨w, hw, hfault⟩ := exists_of_forM_eq_error hcheck
        obtain ⟨c, hc, hundeclared, rfl⟩ := Vocabulary.of_check_eq_error hfault
        exact ⟨_, .undeclared hmake hp hw hc hundeclared, rfl⟩
      · right
        exact ⟨_, rfl, rfl, rfl, rfl⟩
    · rw [dif_neg hstart]
      exact Or.inl ⟨_, .start hmake hstart, rfl⟩

end Grammar

/-- A grammar that is built has the vocabulary, the merged productions and the start symbol that were read. -/
theorem Description.of_build_eq_ok {d : Description} {g : Grammar} (h : d.build = .ok g) :
    ∃ ns ts ps, d.Read ns ts ps g.start ∧ Vocabulary.make ns ts = .ok g.vocabulary ∧
      g.productions = merge ps := by
  rcases d.build_cases with ⟨fault, -, hfault⟩ | ⟨ns, ts, ps, start, hread, hassemble⟩
  · rw [h] at hfault
    cases hfault
  rcases Grammar.assemble_cases ns ts ps start with ⟨fault, -, hfault⟩ | ⟨g', hok, hmake, hmerge, rfl⟩
  · rw [← hassemble, h] at hfault
    cases hfault
  rw [← hassemble, h] at hok
  cases hok
  exact ⟨ns, ts, ps, hread, hmake, hmerge⟩

namespace Grammar

/-! ## The laws of a grammar -/

/-- The laws of a grammar, in one place. -/
structure WellFormed (g : Grammar) : Prop where
  nonterminals_ne_nil : g.vocabulary.nonterminals.toList ≠ []
  disjoint : ∀ c ∈ g.vocabulary.nonterminals, ¬ c ∈ g.vocabulary.terminals
  mark_notMem : ¬ emptyMark ∈ g.vocabulary.nonterminals ∧ ¬ emptyMark ∈ g.vocabulary.terminals
  start_mem : g.start ∈ g.vocabulary.nonterminals
  nodup_left : (g.productions.map (·.left)).Nodup
  left_ne_nil : ∀ p ∈ g.productions, p.left ≠ []
  alternatives_ne_nil : ∀ p ∈ g.productions, p.alternatives ≠ []
  nodup_alternatives : ∀ p ∈ g.productions, p.alternatives.Nodup
  declared : ∀ p ∈ g.productions, ∀ w ∈ p.left :: p.alternatives, ∀ c ∈ w,
    c ∈ g.vocabulary.nonterminals ∨ c ∈ g.vocabulary.terminals
  level_eq : g.level = levelOf g.vocabulary g.productions g.start
  direction_eq : g.direction =
    if g.level = .regular then directionOf g.vocabulary g.productions else none

/-- The types of a grammar and of its parts leave no room for anything else. -/
theorem wellFormed (g : Grammar) : g.WellFormed where
  nonterminals_ne_nil := g.vocabulary.nonempty
  disjoint := g.vocabulary.disjoint
  mark_notMem := ⟨g.vocabulary.mark_notMem_nonterminals, g.vocabulary.mark_notMem_terminals⟩
  start_mem := g.start_mem
  nodup_left := g.nodup_left
  left_ne_nil p _ := p.left_ne_nil
  alternatives_ne_nil p _ := p.alternatives_ne_nil
  nodup_alternatives p _ := p.nodup
  declared p hp w hw c hc := by
    rw [← p.sides_eq] at hw
    have hdeclared := g.declared p hp w hw c hc
    rw [Vocabulary.isDeclared, Bool.or_eq_true, Vocabulary.isTerminal_iff,
      Vocabulary.isNonterminal_iff] at hdeclared
    exact hdeclared.symm
  level_eq := rfl
  direction_eq := rfl

/-- A grammar holds exactly what a description says.  Whatever is said twice counts where it is said
first. -/
structure MadeFrom (g : Grammar) (d : Description) : Prop where
  /-- The nonterminals are those declared, each spelled with one character. -/
  nonterminals : ∀ name, name ∈ d.nonterminals ↔
    ∃ c ∈ g.vocabulary.nonterminals, String.singleton c = name
  /-- The terminals are those declared, each spelled with one character. -/
  terminals : ∀ name, name ∈ d.terminals ↔
    ∃ c ∈ g.vocabulary.terminals, String.singleton c = name
  start : d.start = String.singleton g.start
  /-- What may replace what is what the rules say. -/
  mem_alternatives : ∀ l r, (∃ p ∈ g.productions, p.left = l ∧ r ∈ p.alternatives) ↔
    ∃ rule ∈ d.rules, rule.1 = l ∧ r ∈ rule.2
  /-- Left sides stand in the order of their first appearance. -/
  lefts : g.productions.map (·.left) = (d.rules.map (·.1)).eraseDups
  /-- So do the alternatives of each left side. -/
  alternatives : ∀ p ∈ g.productions,
    p.alternatives = ((d.rules.filter fun rule => rule.1 = p.left).flatMap (·.2)).eraseDups

theorem mem_iff_exists_singleton {cs : List Symbol} {A : Alphabet} (h : A = .ofList cs)
    (name : String) : name ∈ cs.map String.singleton ↔ ∃ c ∈ A, String.singleton c = name := by
  simp only [List.mem_map, h, Alphabet.mem_ofList]

/-- **What is built holds exactly what the description says.** -/
theorem madeFrom_of_build {d : Description} {g : Grammar} (h : d.build = .ok g) : g.MadeFrom d := by
  obtain ⟨ns, ts, ps, hread, hmake, hmerge⟩ := Description.of_build_eq_ok h
  obtain ⟨hns, hts⟩ := Vocabulary.of_make_eq_ok hmake
  refine ⟨?_, ?_, hread.start_eq, ?_, ?_, ?_⟩
  · rw [hread.nonterminals]
    exact mem_iff_exists_singleton hns
  · rw [hread.terminals]
    exact mem_iff_exists_singleton hts
  · intro l r
    rw [hmerge]
    exact hread.mem_alternatives_iff
  · rw [hmerge]
    exact hread.lefts
  · intro p hp
    exact hread.alternatives (hmerge ▸ hp)

/-- Rules with symbols that need no reading are built like a description. -/
theorem ofRules_eq_build (nonterminals terminals : String) (rules : List (String × List String))
    (start : Symbol) :
    ofRules nonterminals terminals rules start =
      Description.build ⟨nonterminals.toList.map String.singleton,
        terminals.toList.map String.singleton, rules, String.singleton start, none, none⟩ := by
  have hnames : ∀ cs : List Symbol, (cs.map String.singleton).mapM symbolOf = .ok cs :=
    fun cs => mapM_map_eq_ok fun c _ => symbolOf_singleton c
  simp only [ofRules, Description.build, hnames, symbolOf?_singleton, bind, Except.bind]

/-- **A grammar holds what was written, and nothing else**, whichever way it was made: from rules in text,
from a description in either format, or from JSON.  It obeys all laws of grammars; its left sides are those
of the rules in the order of their first appearance, and so are the alternatives of each left side. -/
theorem constructed_as_written :
    (∀ nonterminals terminals rules start g, ofRules nonterminals terminals rules start = .ok g →
      g.WellFormed ∧ g.MadeFrom ⟨nonterminals.toList.map String.singleton,
        terminals.toList.map String.singleton, rules, String.singleton start, none, none⟩) ∧
    (∀ (d : Description) g, d.build = .ok g → g.WellFormed ∧ g.MadeFrom d) ∧
    (∀ content g events, ofJson content = .ok (g, events) →
      ∃ d, Json.parse content = .ok d ∧ d.build = .ok g ∧ g.WellFormed ∧ g.MadeFrom d) := by
  refine ⟨?_, ?_, ?_⟩
  · intro nonterminals terminals rules start g h
    rw [ofRules_eq_build] at h
    exact ⟨g.wellFormed, madeFrom_of_build h⟩
  · intro d g h
    exact ⟨g.wellFormed, madeFrom_of_build h⟩
  · intro content g events h
    unfold ofJson at h
    split at h
    · cases h
    · next d hparse =>
      split at h
      · cases h
      · next g' hbuild =>
        cases h
        exact ⟨d, hparse, hbuild, g.wellFormed, madeFrom_of_build hbuild⟩

/-- Rules in pieces: the second rule of `S` repeats two alternatives of the first, one of them spelled in
another way, and adds a third. -/
def piecewise : List (String × List String) :=
  [("S", ["aA", "ε"]), ("A", ["b"]), ("S", ["", "b", "aA"])]

theorem constructed_as_written_piecewise :
    ∃ g, ofRules "SA" "ab" piecewise 'S' = .ok g ∧ g.productions.map (·.left) = [['S'], ['A']] ∧
      ∃ p ∈ g.productions, p.left = ['S'] ∧ p.alternatives = [['a', 'A'], [], ['b']] := by
  obtain ⟨g, hg⟩ : ∃ g, ofRules "SA" "ab" piecewise 'S' = .ok g := ⟨_, rfl⟩
  obtain ⟨-, hmade⟩ := constructed_as_written.1 _ _ _ _ g hg
  have hlefts : g.productions.map (·.left) = [['S'], ['A']] := hmade.lefts.trans (by decide)
  obtain ⟨p, hp, hleft⟩ : ∃ p ∈ g.productions, p.left = ['S'] := by
    rw [← List.mem_map, hlefts]
    exact List.mem_cons_self
  refine ⟨g, hg, hlefts, p, hp, hleft, ?_⟩
  rw [hmade.alternatives p hp, hleft]
  decide

end Grammar

end PhraseStructure
