import PhraseStructure.Proofs.Construction
import Mathlib.Data.List.Nodup
import Mathlib.Logic.Equiv.Basic

/-!
# Renaming symbols

A `Renaming` is a bijection of symbols that keeps the mark of the empty word.  It acts on everything
that is made of symbols: words, texts, productions, vocabularies and grammars.  This module shows that
putting a grammar together commutes with that action, and that the level and the direction of a grammar
do not change under it.

Faults are not compared.  They name symbols, and of several symbols that are declared twice the smallest is
named first, which a renaming may change.  It is enough to show that a renamed description can be put
together if the original can: the converse is the same statement for the inverse renaming.

## Main definitions

* `Renaming`: the bijections, with their action on words, texts, productions and vocabularies.
* `Renaming.grammar`: a grammar with every symbol renamed.

## Main results

* `Renaming.merge_map`: productions are merged in the same order.
* `Renaming.ofRules_of_eq_ok`, `Renaming.exists_ofRules_iff`: construction commutes with renaming.
* `Renaming.level_grammar`, `Renaming.direction_grammar`: the place in the hierarchy stays.
-/

namespace PhraseStructure

/-! ## What construction gives

The types carry the laws of productions, vocabularies and grammars, so it is enough to say which data a
construction gives: there is no other way for it to succeed. -/

theorem Production.make_eq_ok_iff {left : Word} {alternatives : List Word} {q : Production} :
    Production.make left alternatives = .ok q ↔
      q.left = left ∧ q.alternatives = alternatives.foldl appendNew [] := by
  obtain ⟨l, as, hl, has, hnodup⟩ := q
  constructor
  · intro h
    unfold make at h
    split at h
    · cases h
    · split at h
      · cases h
      · cases h
        exact ⟨rfl, rfl⟩
  · rintro ⟨rfl, rfl⟩
    rw [make, dif_neg hl, dif_neg has]

theorem Vocabulary.make_eq_ok_iff {ns ts : List Symbol} {v : Vocabulary} :
    make ns ts = .ok v ↔ v.nonterminals = .ofList ns ∧ v.terminals = .ofList ts := by
  obtain ⟨N, T, hne, hdisjoint, hN, hT⟩ := v
  refine ⟨of_make_eq_ok, ?_⟩
  rintro ⟨rfl, rfl⟩
  have hmark : ¬ (emptyMark ∈ Alphabet.ofList ns ∨ emptyMark ∈ Alphabet.ofList ts) := not_or.mpr ⟨hN, hT⟩
  rw [make, dif_neg hne, dif_pos (Alphabet.common_eq_nil_iff.mpr hdisjoint), dif_neg hmark]

theorem Grammar.assemble_eq_ok_iff {ns ts : List Symbol} {qs : List Production} {start : Symbol}
    {g : Grammar} : assemble ns ts qs start = .ok g ↔
      Vocabulary.make ns ts = .ok g.vocabulary ∧ g.productions = merge qs ∧ g.start = start := by
  obtain ⟨v, productions, start', hstart, hnodup, hdeclared⟩ := g
  constructor
  · intro h
    rcases assemble_cases ns ts qs start with ⟨fault, -, hfault⟩ | ⟨g', hok, hg'⟩
    · rw [h] at hfault
      cases hfault
    · rw [h] at hok
      cases hok
      exact hg'
  · rintro ⟨hv, rfl, rfl⟩
    have hchecked : (merge qs).forM (·.check v) = .ok () := by
      rw [forM_eq_ok_iff]
      intro q hq
      exact Production.check_eq_ok_iff.mpr (hdeclared q hq)
    rw [assemble, hv]
    dsimp only
    rw [dif_pos hstart]
    split
    · next fault hfault =>
      rw [hchecked] at hfault
      cases hfault
    · rfl

namespace Alphabet

/-- The order of the members is forced, so alphabets with the same members are equal. -/
theorem eq_of_mem_iff {A B : Alphabet} (h : ∀ c, c ∈ A ↔ c ∈ B) : A = B := by
  obtain ⟨as, has⟩ := A
  obtain ⟨bs, hbs⟩ := B
  -- Both list the same members without repetition, and in the same order.
  have hperm : as.Perm bs :=
    (List.perm_ext_iff_of_nodup (has.imp Char.ne_of_lt) (hbs.imp Char.ne_of_lt)).mpr h
  have heq : as = bs :=
    hperm.eq_of_pairwise (fun _ _ _ _ hab hba => absurd hab (Char.lt_asymm hba)) has hbs
  subst heq
  rfl

end Alphabet

/-- A bijection of symbols that keeps the mark of the empty word. -/
structure Renaming where
  /-- Where each symbol goes. -/
  perm : Symbol ≃ Symbol
  /-- The mark of the empty word stays what it is. -/
  keeps_mark : perm emptyMark = emptyMark

namespace Renaming

instance : CoeFun Renaming fun _ => Symbol → Symbol := ⟨fun p => p.perm⟩

variable (p : Renaming)

theorem injective : Function.Injective p := p.perm.injective

/-- A word with every symbol renamed. -/
def word (w : Word) : Word :=
  w.map p

/-- A text with every character renamed. -/
def text (s : String) : String :=
  String.ofList (p.word s.toList)

/-- A written rule with both its sides renamed. -/
def rule (r : String × List String) : String × List String :=
  (p.text r.1, r.2.map p.text)

section Words

@[simp]
theorem apply_inj {c d : Symbol} : p c = p d ↔ c = d :=
  p.injective.eq_iff

@[simp]
theorem apply_mark : p emptyMark = emptyMark :=
  p.keeps_mark

@[simp]
theorem word_nil : p.word [] = [] := rfl

@[simp]
theorem word_cons (c : Symbol) (w : Word) : p.word (c :: w) = p c :: p.word w := rfl

@[simp]
theorem word_append (v w : Word) : p.word (v ++ w) = p.word v ++ p.word w :=
  List.map_append

@[simp]
theorem word_reverse (w : Word) : p.word w.reverse = (p.word w).reverse :=
  List.map_reverse

@[simp]
theorem length_word (w : Word) : (p.word w).length = w.length :=
  List.length_map p

theorem word_injective : Function.Injective p.word :=
  List.map_injective_iff.mpr p.injective

@[simp]
theorem word_inj {v w : Word} : p.word v = p.word w ↔ v = w :=
  p.word_injective.eq_iff

@[simp]
theorem word_eq_nil_iff {w : Word} : p.word w = [] ↔ w = [] :=
  List.map_eq_nil_iff

@[simp]
theorem word_eq_singleton_iff {w : Word} {c : Symbol} : p.word w = [p c] ↔ w = [c] :=
  p.word_inj (w := [c])

@[simp]
theorem mem_word {w : Word} {c : Symbol} : p c ∈ p.word w ↔ c ∈ w :=
  List.mem_map_of_injective p.injective

/-- The mark alone is renamed to the mark alone, and nothing else is. -/
theorem ofChars_word (cs : List Char) : Word.ofChars (p.word cs) = p.word (Word.ofChars cs) := by
  have hmark : p.word cs = [emptyMark] ↔ cs = [emptyMark] := by
    simpa using p.word_eq_singleton_iff (w := cs) (c := emptyMark)
  by_cases h : cs = [emptyMark]
  · rw [Word.ofChars, Word.ofChars, if_pos (hmark.mpr h), if_pos h, word_nil]
  · rw [Word.ofChars, Word.ofChars, if_neg (mt hmark.mp h), if_neg h]

@[simp]
theorem read_text (s : String) : Word.read (p.text s) = p.word (Word.read s) := by
  rw [Word.read, text, String.toList_ofList, ofChars_word, Word.read]

end Words

/-! ## Productions -/

/-- A production with both its sides renamed. -/
def production (q : Production) : Production where
  left := p.word q.left
  alternatives := q.alternatives.map p.word
  left_ne_nil := by simpa using q.left_ne_nil
  alternatives_ne_nil := by simpa using q.alternatives_ne_nil
  nodup := q.nodup.map p.word_injective

@[simp]
theorem left_production (q : Production) : (p.production q).left = p.word q.left := rfl

@[simp]
theorem alternatives_production (q : Production) :
    (p.production q).alternatives = q.alternatives.map p.word := rfl

section Appending

variable {α β : Type} [DecidableEq α] [DecidableEq β] {f : α → β}

theorem appendNew_map (hf : Function.Injective f) (xs : List α) (x : α) :
    appendNew (xs.map f) (f x) = (appendNew xs x).map f := by
  unfold appendNew
  simp only [List.mem_map_of_injective hf]
  split
  · rfl
  · rw [List.map_append, List.map_singleton]

theorem foldl_appendNew_map (hf : Function.Injective f) (xs ys : List α) :
    (ys.map f).foldl appendNew (xs.map f) = (ys.foldl appendNew xs).map f := by
  induction ys generalizing xs with
  | nil => rfl
  | cons y ys ih => rw [List.map_cons, List.foldl_cons, List.foldl_cons, appendNew_map hf, ih]

end Appending

theorem make_of_eq_ok {left : Word} {alternatives : List Word} {q : Production}
    (h : Production.make left alternatives = .ok q) :
    Production.make (p.word left) (alternatives.map p.word) = .ok (p.production q) := by
  rw [Production.make_eq_ok_iff] at h ⊢
  obtain ⟨rfl, halternatives⟩ := h
  refine ⟨rfl, ?_⟩
  rw [alternatives_production, halternatives]
  exact (foldl_appendNew_map p.word_injective [] alternatives).symm

theorem production_extend (q : Production) (alternatives : List Word) :
    p.production (q.extend alternatives) =
      (p.production q).extend (alternatives.map p.word) := by
  simp [production, Production.extend, foldl_appendNew_map p.word_injective]

theorem mergeInto_map (qs : List Production) (q : Production) :
    mergeInto (qs.map p.production) (p.production q) = (mergeInto qs q).map p.production := by
  induction qs with
  | nil => rfl
  | cons q' qs ih =>
    rw [List.map_cons, mergeInto, mergeInto, left_production, left_production]
    simp only [word_inj]
    split
    · rw [alternatives_production, ← production_extend, List.map_cons]
    · rw [ih, List.map_cons]

theorem foldl_mergeInto_map (qs rest : List Production) :
    (rest.map p.production).foldl mergeInto (qs.map p.production) =
      (rest.foldl mergeInto qs).map p.production := by
  induction rest generalizing qs with
  | nil => rfl
  | cons q rest ih => rw [List.map_cons, List.foldl_cons, List.foldl_cons, mergeInto_map, ih]

/-- Left sides meet after a renaming exactly if they met before, so merging keeps its order. -/
theorem merge_map (qs : List Production) :
    merge (qs.map p.production) = (merge qs).map p.production :=
  p.foldl_mergeInto_map [] qs

/-! ## Vocabularies -/

/-- An alphabet with its members renamed, put in order again. -/
def alphabet (A : Alphabet) : Alphabet :=
  .ofList (p.word A.toList)

@[simp]
theorem mem_alphabet {c : Symbol} {A : Alphabet} : p c ∈ p.alphabet A ↔ c ∈ A := by
  rw [alphabet, Alphabet.mem_ofList, mem_word, Alphabet.mem_toList]

theorem mark_mem_alphabet {A : Alphabet} : emptyMark ∈ p.alphabet A ↔ emptyMark ∈ A := by
  simpa using p.mem_alphabet (c := emptyMark) (A := A)

theorem exists_of_mem_alphabet {d : Symbol} {A : Alphabet} (h : d ∈ p.alphabet A) :
    ∃ c ∈ A, d = p c := by
  rw [alphabet, Alphabet.mem_ofList, word, List.mem_map] at h
  obtain ⟨c, hc, rfl⟩ := h
  exact ⟨c, hc, rfl⟩

/-- A vocabulary with its symbols renamed. -/
def vocabulary (v : Vocabulary) : Vocabulary where
  nonterminals := p.alphabet v.nonterminals
  terminals := p.alphabet v.terminals
  nonempty := by
    obtain ⟨c, hc⟩ := List.exists_mem_of_ne_nil _ v.nonempty
    exact List.ne_nil_of_mem (p.mem_alphabet.mpr hc)
  disjoint := by
    intro d hd
    obtain ⟨c, hc, rfl⟩ := p.exists_of_mem_alphabet hd
    rw [mem_alphabet]
    exact v.disjoint c hc
  mark_notMem_nonterminals := mt p.mark_mem_alphabet.mp v.mark_notMem_nonterminals
  mark_notMem_terminals := mt p.mark_mem_alphabet.mp v.mark_notMem_terminals

section Vocabularies

variable (v : Vocabulary)

@[simp]
theorem isNonterminal_apply (c : Symbol) :
    (p.vocabulary v).isNonterminal (p c) = v.isNonterminal c := by
  rw [Bool.eq_iff_iff, Vocabulary.isNonterminal_iff, Vocabulary.isNonterminal_iff]
  exact p.mem_alphabet

@[simp]
theorem isTerminal_apply (c : Symbol) : (p.vocabulary v).isTerminal (p c) = v.isTerminal c := by
  rw [Bool.eq_iff_iff, Vocabulary.isTerminal_iff, Vocabulary.isTerminal_iff]
  exact p.mem_alphabet

@[simp]
theorem isDeclared_apply (c : Symbol) : (p.vocabulary v).isDeclared (p c) = v.isDeclared c := by
  simp [Vocabulary.isDeclared]

@[simp]
theorem allTerminal_word (w : Word) : (p.vocabulary v).allTerminal (p.word w) = v.allTerminal w := by
  simp [Vocabulary.allTerminal, word, List.all_map, Function.comp_def]

end Vocabularies

theorem alphabet_ofList (cs : List Symbol) : p.alphabet (.ofList cs) = .ofList (p.word cs) := by
  apply Alphabet.eq_of_mem_iff
  intro d
  simp only [alphabet, word, Alphabet.mem_ofList, List.mem_map, Alphabet.mem_toList]

theorem makeVocabulary_of_eq_ok {ns ts : List Symbol} {v : Vocabulary}
    (h : Vocabulary.make ns ts = .ok v) :
    Vocabulary.make (p.word ns) (p.word ts) = .ok (p.vocabulary v) := by
  rw [Vocabulary.make_eq_ok_iff] at h ⊢
  refine ⟨?_, ?_⟩
  · rw [← p.alphabet_ofList, ← h.1, vocabulary]
  · rw [← p.alphabet_ofList, ← h.2, vocabulary]

/-! ## Grammars -/

@[simp]
theorem sides_production (q : Production) : (p.production q).sides = q.sides.map p.word := by
  rw [Production.sides_eq, Production.sides_eq]
  rfl

theorem declared_production (v : Vocabulary) (q : Production) :
    (∀ w ∈ (p.production q).sides, ∀ c ∈ w, (p.vocabulary v).isDeclared c = true) ↔
      ∀ w ∈ q.sides, ∀ c ∈ w, v.isDeclared c = true := by
  simp [word]

/-- A grammar with every symbol renamed. -/
def grammar (g : Grammar) : Grammar where
  vocabulary := p.vocabulary g.vocabulary
  productions := g.productions.map p.production
  start := p g.start
  start_mem := p.mem_alphabet.mpr g.start_mem
  nodup_left := by
    -- The left sides of what was renamed are the renamed left sides.
    have hcomp : (g.productions.map p.production).map (·.left) =
        (g.productions.map (·.left)).map p.word := by
      rw [List.map_map, List.map_map]
      rfl
    rw [hcomp]
    exact g.nodup_left.map p.word_injective
  declared := by
    rw [List.forall_mem_map]
    intro q hq
    exact (p.declared_production g.vocabulary q).mpr (g.declared q hq)

theorem assemble_of_eq_ok {ns ts : List Symbol} {qs : List Production} {start : Symbol} {g : Grammar}
    (h : Grammar.assemble ns ts qs start = .ok g) :
    Grammar.assemble (p.word ns) (p.word ts) (qs.map p.production) (p start) =
      .ok (p.grammar g) := by
  rw [Grammar.assemble_eq_ok_iff] at h ⊢
  obtain ⟨hvocabulary, hproductions, rfl⟩ := h
  refine ⟨p.makeVocabulary_of_eq_ok hvocabulary, ?_, rfl⟩
  rw [merge_map, ← hproductions, grammar]

theorem mapM_ofText_of_eq_ok {rules : List (String × List String)} {qs : List Production}
    (h : rules.mapM (fun (left, alternatives) => Production.ofText left alternatives) = .ok qs) :
    (rules.map p.rule).mapM (fun (left, alternatives) => Production.ofText left alternatives) =
      .ok (qs.map p.production) := by
  have hall := forall₂_of_mapM_eq_ok h
  clear h
  -- The induction is along the rules and what each of them was read as.
  induction hall with
  | nil => rfl
  | @cons rule q rules qs hrule _ ih =>
    obtain ⟨left, alternatives⟩ := rule
    have hq : Production.ofText (p.text left) (alternatives.map p.text) = .ok (p.production q) := by
      have hmake := p.make_of_eq_ok hrule
      simpa [Production.ofText, Function.comp_def] using hmake
    rw [List.map_cons, List.mapM_cons, ih, Renaming.rule]
    dsimp only
    rw [hq]
    rfl

/-- **A renamed description is put together** to the renamed grammar, if the original can be. -/
theorem ofRules_of_eq_ok {nonterminals terminals : String} {rules : List (String × List String)}
    {start : Symbol} {g : Grammar} (h : Grammar.ofRules nonterminals terminals rules start = .ok g) :
    Grammar.ofRules (p.text nonterminals) (p.text terminals) (rules.map p.rule) (p start) =
      .ok (p.grammar g) := by
  unfold Grammar.ofRules at h ⊢
  cases hqs : rules.mapM (fun (left, alternatives) => Production.ofText left alternatives) with
  | error fault =>
    rw [hqs] at h
    cases h
  | ok qs =>
    rw [hqs] at h
    rw [p.mapM_ofText_of_eq_ok hqs]
    show Grammar.assemble _ _ _ _ = _
    rw [text, text, String.toList_ofList, String.toList_ofList]
    exact p.assemble_of_eq_ok h

/-- The renaming that takes everything back. -/
def symm : Renaming where
  perm := p.perm.symm
  keeps_mark := (Equiv.symm_apply_eq p.perm).mpr p.keeps_mark.symm

@[simp]
theorem symm_apply (c : Symbol) : p.symm (p c) = c :=
  p.perm.symm_apply_apply c

@[simp]
theorem symm_word (w : Word) : p.symm.word (p.word w) = w := by
  simp [word, Function.comp_def]

@[simp]
theorem symm_text (s : String) : p.symm.text (p.text s) = s := by
  simp [text]

@[simp]
theorem symm_rule (r : String × List String) : p.symm.rule (p.rule r) = r := by
  simp [rule, Function.comp_def]

/-- A renamed description can be put together exactly if the original can. -/
theorem exists_ofRules_iff (nonterminals terminals : String) (rules : List (String × List String))
    (start : Symbol) :
    (∃ g', Grammar.ofRules (p.text nonterminals) (p.text terminals) (rules.map p.rule) (p start) =
      .ok g') ↔ ∃ g, Grammar.ofRules nonterminals terminals rules start = .ok g := by
  constructor
  · rintro ⟨g', h⟩
    -- Renaming back is a renaming too.
    have hback := p.symm.ofRules_of_eq_ok h
    simp only [symm_text, symm_apply, List.map_map, Function.comp_def, symm_rule, List.map_id'] at hback
    exact ⟨_, hback⟩
  · rintro ⟨g, h⟩
    exact ⟨_, p.ofRules_of_eq_ok h⟩

/-! ## The hierarchy -/

section Hierarchy

variable (v : Vocabulary)

@[simp]
theorem isMark_word (w : Word) : Spelling.isMark (p.word w) = Spelling.isMark w :=
  List.isEmpty_map

@[simp]
theorem isPair_word (d : Direction) (w : Word) :
    (p.vocabulary v).isPair d (p.word w) = v.isPair d w := by
  match d, w with
  | .right, [] | .right, [_] | .right, _ :: _ :: _ :: _ => rfl
  | .left, [] | .left, [_] | .left, _ :: _ :: _ :: _ => rfl
  | .right, [a, b] => simp [Vocabulary.isPair]
  | .left, [a, b] => simp [Vocabulary.isPair]

@[simp]
theorem isLinear_word (d : Direction) (w : Word) :
    (p.vocabulary v).isLinear d (p.word w) = v.isLinear d w := by
  match w with
  | [] => rfl
  | [a] => exact p.isTerminal_apply v a
  | a :: b :: w => exact p.isPair_word v d (a :: b :: w)

@[simp]
theorem singleLeft_production (q : Production) :
    (p.production q).singleLeft = q.singleLeft.map p := by
  rw [Production.singleLeft, Production.singleLeft, left_production]
  rcases q.left with _ | ⟨c, _ | ⟨c', rest⟩⟩
  all_goals rfl

@[simp]
theorem isContextFree_production (q : Production) :
    (p.production q).isContextFree (p.vocabulary v) = q.isContextFree v := by
  rw [Production.isContextFree, Production.isContextFree, singleLeft_production]
  cases q.singleLeft with
  | none => rfl
  | some c => exact p.isNonterminal_apply v c

@[simp]
theorem isLinear_production (d : Direction) (q : Production) :
    (p.production q).isLinear (p.vocabulary v) d = q.isLinear v d := by
  simp [Production.isLinear, List.all_map, Function.comp_def]

@[simp]
theorem isMonotone_production (start : Symbol) (q : Production) :
    (p.production q).isMonotone (p start) = q.isMonotone start := by
  simp [Production.isMonotone, List.all_map, Function.comp_def]

@[simp]
theorem erases_production (q : Production) : (p.production q).erases = q.erases := by
  simp [Production.erases, Function.comp_def]

theorem allAlternatives_map (qs : List Production) :
    allAlternatives (qs.map p.production) = (allAlternatives qs).map p.word := by
  simp [allAlternatives, List.flatMap_map, List.map_flatMap]

theorem directionOf_map (qs : List Production) :
    directionOf (p.vocabulary v) (qs.map p.production) = directionOf v qs := by
  simp [directionOf, allAlternatives_map, List.any_map, Function.comp_def]

theorem startIsolated_map (start : Symbol) (qs : List Production) :
    startIsolated (p start) (qs.map p.production) = startIsolated start qs := by
  simp [startIsolated, allAlternatives_map, List.any_map, List.all_map, Function.comp_def]

theorem levelOf_map (qs : List Production) (start : Symbol) :
    levelOf (p.vocabulary v) (qs.map p.production) (p start) = levelOf v qs start := by
  simp [levelOf, isRegular, isContextFree, isContextSensitive, directionOf_map, startIsolated_map,
    List.all_map, Function.comp_def]

end Hierarchy

@[simp]
theorem level_grammar (g : Grammar) : (p.grammar g).level = g.level :=
  p.levelOf_map g.vocabulary g.productions g.start

@[simp]
theorem direction_grammar (g : Grammar) : (p.grammar g).direction = g.direction := by
  unfold Grammar.direction
  rw [level_grammar]
  congr 1
  exact p.directionOf_map g.vocabulary g.productions

end Renaming

end PhraseStructure
