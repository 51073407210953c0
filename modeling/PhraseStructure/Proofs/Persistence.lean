import PhraseStructure.Persistence
import PhraseStructure.Proofs.JsonRoundTrip

/-!
# Saving and loading lose nothing

A grammar that is saved is written down as a description, and loading builds the description again.  Nothing
on the way back changes anything: symbols are spelled with one character and read as such, the empty
alternative is written as the mark and read as the empty word, since no symbol is the mark, and putting
symbols in order, dropping repetitions and merging left sides find nothing to do in what a grammar already
holds.  The level is computed again from the same productions and so agrees with the one that was stored.

## Main results

* `Grammar.build_toDescription`: a grammar written down and built again is the same grammar.
* `Grammar.saved_grammars_load`: descriptions read back from their JSON, and so do grammars, without a note
  about their level.
-/

namespace PhraseStructure

/-! ## Collecting what is collected -/

theorem Alphabet.place_of_forall_lt {c : Symbol} {cs : List Symbol} (h : ∀ d ∈ cs, c < d) :
    place c cs = c :: cs := by
  cases cs with
  | nil => rfl
  | cons d ds => rw [place, if_pos (h d List.mem_cons_self)]

@[simp]
theorem Alphabet.ofList_toList (A : Alphabet) : ofList A.toList = A := by
  have hsorted : ∀ cs : List Symbol, cs.Pairwise (· < ·) → (ofList cs).toList = cs := by
    intro cs h
    induction cs with
    | nil => rfl
    | cons c cs ih =>
      obtain ⟨hc, hcs⟩ := List.pairwise_cons.mp h
      change place c (ofList cs).toList = c :: cs
      rw [ih hcs, place_of_forall_lt hc]
  have hlist := hsorted A.toList A.sorted
  cases h : ofList A.toList with
  | mk cs sorted =>
    rw [h] at hlist
    subst hlist
    rfl

theorem foldl_appendNew_of_nodup {α : Type} [DecidableEq α] {xs ys : List α} (h : (xs ++ ys).Nodup) :
    ys.foldl appendNew xs = xs ++ ys := by
  induction ys generalizing xs with
  | nil => simp
  | cons y ys ih =>
    have hy : y ∉ xs := fun hmem => (List.nodup_append.mp h).2.2 y hmem y List.mem_cons_self rfl
    rw [List.append_cons] at h
    rw [List.foldl_cons, appendNew, if_neg hy, ih h, List.append_assoc, List.singleton_append]

theorem mergeInto_of_notMem {qs : List Production} {p : Production} (h : p.left ∉ qs.map (·.left)) :
    mergeInto qs p = qs ++ [p] := by
  induction qs with
  | nil => rfl
  | cons q qs ih =>
    rw [List.map_cons, List.mem_cons, not_or] at h
    rw [mergeInto, if_neg (Ne.symm h.1), ih h.2, List.cons_append]

theorem merge_of_nodup {ps : List Production} (h : (ps.map (·.left)).Nodup) : merge ps = ps := by
  have hfold : ∀ qs, ((qs ++ ps).map (·.left)).Nodup → ps.foldl mergeInto qs = qs ++ ps := by
    clear h
    induction ps with
    | nil => simp
    | cons p ps ih =>
      intro qs h
      have hp : p.left ∉ qs.map (·.left) := by
        rw [List.map_append] at h
        exact fun hmem => (List.nodup_append.mp h).2.2 _ hmem _ List.mem_cons_self rfl
      rw [List.append_cons] at h
      rw [List.foldl_cons, mergeInto_of_notMem hp, ih _ h, List.append_assoc, List.singleton_append]
  exact hfold [] h

/-! ## Reading what is written -/

theorem mapM_map_eq_ok {ε α β : Type} {write : α → β} {read : β → Except ε α} {xs : List α}
    (h : ∀ x ∈ xs, read (write x) = .ok x) : (xs.map write).mapM read = .ok xs := by
  induction xs with
  | nil => rfl
  | cons x xs ih =>
    obtain ⟨hx, hxs⟩ := List.forall_mem_cons.mp h
    rw [List.map_cons, List.mapM_cons, hx, ih hxs]
    rfl

theorem symbolOf?_singleton (c : Symbol) : symbolOf? (String.singleton c) = some c := by
  rw [symbolOf?, String.toList_singleton]

theorem symbolOf_singleton (c : Symbol) : symbolOf (String.singleton c) = .ok c := by
  rw [symbolOf, symbolOf?_singleton]

theorem Word.read_plain {w : Word} (h : w ≠ [emptyMark]) : read (plain w) = w := by
  rw [read, plain, String.toList_ofList, ofChars, if_neg h]

theorem Production.make_self (p : Production) : make p.left p.alternatives = .ok p := by
  have hfold : p.alternatives.foldl appendNew [] = p.alternatives := foldl_appendNew_of_nodup p.nodup
  have hne : p.alternatives.foldl appendNew [] ≠ [] := by
    rw [hfold]
    exact p.alternatives_ne_nil
  rw [make, dif_neg p.left_ne_nil, dif_neg hne]
  simp only [hfold]

/-- A production of which no side is the bare mark is read back from its text. -/
theorem Production.ofText_plain {p : Production} (h : ∀ w ∈ p.sides, w ≠ [emptyMark]) :
    ofText p.left.plain (p.alternatives.map Word.shown) = .ok p := by
  rw [p.sides_eq] at h
  obtain ⟨hleft, halternatives⟩ := List.forall_mem_cons.mp h
  have hread : (p.alternatives.map Word.shown).map Word.read = p.alternatives :=
    calc (p.alternatives.map Word.shown).map Word.read
        = p.alternatives.map (Word.read ∘ Word.shown) := List.map_map
      _ = p.alternatives.map id :=
        List.map_congr_left fun w hw => Word.read_shown (halternatives w hw)
      _ = p.alternatives := List.map_id _
  rw [ofText, Word.read_plain hleft, hread, make_self]

theorem Vocabulary.make_toList (v : Vocabulary) :
    make v.nonterminals.toList v.terminals.toList = .ok v := by
  have hdisjoint := Alphabet.common_eq_nil_iff.mpr v.disjoint
  have hmark : ¬ (emptyMark ∈ v.nonterminals ∨ emptyMark ∈ v.terminals) :=
    not_or.mpr ⟨v.mark_notMem_nonterminals, v.mark_notMem_terminals⟩
  simp only [make, Alphabet.ofList_toList]
  rw [dif_neg v.nonempty, dif_pos hdisjoint, dif_neg hmark]

namespace Grammar

/-- No side of a production is the bare mark, because the mark is no symbol. -/
theorem ne_emptyMark_of_mem_sides {g : Grammar} {p : Production} (hp : p ∈ g.productions) {w : Word}
    (hw : w ∈ p.sides) : w ≠ [emptyMark] := by
  rintro rfl
  have hdeclared := g.declared p hp _ hw emptyMark (List.mem_singleton_self _)
  rw [Vocabulary.isDeclared, Bool.or_eq_true, Vocabulary.isTerminal_iff,
    Vocabulary.isNonterminal_iff] at hdeclared
  rcases hdeclared with hmem | hmem
  · exact g.vocabulary.mark_notMem_terminals hmem
  · exact g.vocabulary.mark_notMem_nonterminals hmem

theorem assemble_self (g : Grammar) :
    assemble g.vocabulary.nonterminals.toList g.vocabulary.terminals.toList g.productions g.start =
      .ok g := by
  have hchecks : (merge g.productions).forM (·.check g.vocabulary) = .ok () := by
    rw [merge_of_nodup g.nodup_left, forM_eq_ok_iff]
    exact fun p hp => Production.check_eq_ok_iff.mpr (g.declared p hp)
  rw [assemble, Vocabulary.make_toList]
  dsimp only
  rw [dif_pos g.start_mem]
  split
  · next hfault => rw [hchecks] at hfault; cases hfault
  · simp only [merge_of_nodup g.nodup_left]

/-- **A grammar written down and built again is the same grammar.** -/
theorem build_toDescription (g : Grammar) : g.toDescription.build = .ok g := by
  have hnonterminals : g.toDescription.nonterminals.mapM symbolOf =
      .ok g.vocabulary.nonterminals.toList := mapM_map_eq_ok fun c _ => symbolOf_singleton c
  have hterminals : g.toDescription.terminals.mapM symbolOf = .ok g.vocabulary.terminals.toList :=
    mapM_map_eq_ok fun c _ => symbolOf_singleton c
  have hstart : symbolOf? g.toDescription.start = some g.start := symbolOf?_singleton g.start
  have hproductions : g.toDescription.productions =
      g.productions.map fun p => (p.left.plain, p.alternatives.map Word.shown) := rfl
  simp only [Description.build, hnonterminals, hterminals, hstart, hproductions, bind, Except.bind]
  rw [mapM_map_eq_ok ?_]
  · exact assemble_self g
  · intro p hp
    exact Production.ofText_plain fun w => ne_emptyMark_of_mem_sides hp

theorem levelNote_number (g : Grammar) : g.levelNote (some g.level.number.toUInt8) = [] := by
  have hnumber : g.level.number.toUInt8.toNat = g.level.number := by
    cases g.level <;> rfl
  rw [levelNote, if_pos hnumber]

/-- **Saving and loading lose nothing**: every description reads back from its JSON as it was, and every
grammar loads from its JSON as it was, with a note that it was constructed and no other. -/
theorem saved_grammars_load :
    (∀ d : Description, Json.parse (Json.print d) = .ok d) ∧
    ∀ g : Grammar, ofJson g.toJson = .ok (g, [g.constructed]) := by
  refine ⟨Json.parse_print, ?_⟩
  intro g
  rw [ofJson, toJson, Json.parse_print]
  dsimp only
  rw [build_toDescription]
  dsimp only
  rw [show g.toDescription.level = some g.level.number.toUInt8 from rfl, levelNote_number]

end Grammar

end PhraseStructure
