import PhraseStructure.Proofs.ContextFree
import Mathlib.Algebra.BigOperators.Ring.List

/-!
# The items of a chart

Which items belong into the chart of an input is said here without any chart: they are those that can be
reached from the rules of the start symbol by predicting, scanning and completing.  An item that can be
reached has found the part of the input between its origin and its position (`Charted.yields`), and it
finds whatever the input goes on with, as long as its rule asks for it (`Charted.found`).  So a
rule of the start symbol is completed over the whole input exactly if the start symbol yields it.

## Main definitions

* `Word.slice`: the part of a word between two positions.
* `Item.rest`: what an item still expects.
* `Charted`: the items that belong into the chart of an input.
* `itemsUpTo`: all items that might belong there, to count them.

## Main results

* `Charted.yields`: what an item has found is yielded by the front of its rule.
* `Charted.found`: what the next symbols of its rule yield is found.
* `exists_charted_complete_iff`: the rules of the start symbol complete the words that it yields.
* `length_itemsUpTo`: how many items there are up to a position.
-/

namespace PhraseStructure

/-! ## Parts of a word -/

/-- The part of a word between two positions. -/
def Word.slice (w : Word) (i j : Nat) : Word :=
  (w.drop i).take (j - i)

theorem Word.slice_self (w : Word) (i : Nat) : w.slice i i = [] := by
  simp [slice]

theorem Word.slice_append (w : Word) {i j k : Nat} (hij : i ≤ j) (hjk : j ≤ k) :
    w.slice i j ++ w.slice j k = w.slice i k := by
  have hlen : k - i = (j - i) + (k - j) := by omega
  rw [slice, slice, slice, hlen, List.take_add, List.drop_drop, Nat.add_sub_cancel' hij]

theorem Word.slice_succ {w : Word} {i : Nat} {c : Symbol} (h : w[i]? = some c) :
    w.slice i (i + 1) = [c] := by
  obtain ⟨hi, rfl⟩ := List.getElem?_eq_some_iff.mp h
  rw [slice, List.drop_eq_getElem_cons hi, Nat.add_sub_cancel_left]
  rfl

theorem Word.slice_zero_length (w : Word) : w.slice 0 w.length = w := by
  simp [slice]

theorem Word.take_append_slice (w : Word) {i j : Nat} (hij : i ≤ j) :
    w.take i ++ w.slice i j = w.take j := by
  rw [slice, ← List.take_add, Nat.add_sub_cancel' hij]

theorem Word.slice_isPrefix (w : Word) (i j : Nat) : w.slice i j <+: w.drop i :=
  List.take_prefix _ _

theorem Word.length_slice {w : Word} {i j : Nat} (hj : j ≤ w.length) :
    (w.slice i j).length = j - i := by
  rw [slice, List.length_take, List.length_drop]
  omega

theorem Word.mem_of_mem_slice {w : Word} {i j : Nat} {c : Symbol} (h : c ∈ w.slice i j) : c ∈ w :=
  List.mem_of_mem_drop (List.mem_of_mem_take h)

theorem Word.of_cons_prefix_drop {w u : Word} {i : Nat} {c : Symbol} (h : c :: u <+: w.drop i) :
    w[i]? = some c ∧ u <+: w.drop (i + 1) := by
  obtain ⟨after, hafter⟩ := h
  refine ⟨?_, after, ?_⟩
  · rw [← List.head?_drop, ← hafter]
    rfl
  · rw [← List.drop_drop, ← hafter]
    rfl

theorem Word.of_append_prefix_drop {w u v : Word} {i : Nat} (h : u ++ v <+: w.drop i) :
    u <+: w.drop i ∧ v <+: w.drop (i + u.length) := by
  refine ⟨(List.prefix_append u v).trans h, ?_⟩
  obtain ⟨after, hafter⟩ := h
  refine ⟨after, ?_⟩
  rw [← List.drop_drop, ← hafter, List.append_assoc, List.drop_left]

/-! ## What an item expects -/

namespace Item

variable {item : Item} {c : Symbol} {f : Word}

/-- What an item still expects. -/
def rest (item : Item) : Word :=
  item.rule.right.drop item.dot

@[simp]
theorem rule_advance (item : Item) : item.advance.rule = item.rule := rfl

@[simp]
theorem origin_advance (item : Item) : item.advance.origin = item.origin := rfl

@[simp]
theorem dot_advance (item : Item) : item.advance.dot = item.dot + 1 := rfl

theorem next?_eq_head? (item : Item) : item.next? = item.rest.head? := by
  rw [next?, rest, List.head?_drop]

theorem next?_of_rest (h : item.rest = c :: f) : item.next? = some c := by
  rw [next?_eq_head?, h]
  rfl

theorem rest_advance (h : item.rest = c :: f) : item.advance.rest = f := by
  rw [rest, rule_advance, dot_advance, ← List.drop_drop]
  rw [rest] at h
  rw [h]
  rfl

theorem of_cons_prefix_rest (h : c :: f <+: item.rest) :
    item.next? = some c ∧ f <+: item.advance.rest := by
  obtain ⟨back, hback⟩ := h
  exact ⟨next?_of_rest hback.symm, back, (rest_advance hback.symm).symm⟩

theorem take_advance (h : item.next? = some c) :
    item.advance.rule.right.take item.advance.dot = item.rule.right.take item.dot ++ [c] := by
  obtain ⟨hlt, rfl⟩ := List.getElem?_eq_some_iff.mp h
  rw [rule_advance, dot_advance, List.take_succ_eq_append_getElem hlt]

/-- What a rule asks for is what was found, the symbol that is expected, and the rest. -/
theorem exists_right_eq (h : item.next? = some c) :
    ∃ back, item.rule.right = item.rule.right.take item.dot ++ [c] ++ back := by
  rw [← take_advance h]
  exact ⟨item.advance.rest, (List.take_append_drop _ _).symm⟩

theorem isComplete_iff_dot_eq (h : item.dot ≤ item.rule.right.length) :
    item.isComplete = true ↔ item.dot = item.rule.right.length := by
  rw [isComplete, Option.isNone_iff_eq_none, next?, List.getElem?_eq_none_iff]
  exact ⟨h.antisymm, fun heq => heq.ge⟩

/-- A complete item has found all of its rule. -/
theorem take_of_next?_eq_none (h : item.next? = none) :
    item.rule.right.take item.dot = item.rule.right :=
  List.take_of_length_le (List.getElem?_eq_none_iff.mp h)

end Item

/-! ## The items that belong into a chart -/

/-- The items that belong into the chart of an input, by position. -/
inductive Charted (g : Grammar) (w : Word) : Nat → Item → Prop where
  /-- The rules of the start symbol begin at the front. -/
  | start {rule : Rule} : rule ∈ g.rules → rule.left = g.start → Charted g w 0 ⟨rule, 0, 0⟩
  /-- The rules of a nonterminal that is expected begin where it is expected. -/
  | predict {p : Nat} {item : Item} {rule : Rule} : Charted g w p item →
      item.next? = some rule.left → rule.left ∈ g.vocabulary.nonterminals → rule ∈ g.rules →
      Charted g w p ⟨rule, 0, p⟩
  /-- A symbol that is expected and stands in the input has been found behind it. -/
  | scan {p : Nat} {item : Item} {c : Symbol} : Charted g w p item → item.next? = some c →
      ¬ c ∈ g.vocabulary.nonterminals → w[p]? = some c → Charted g w (p + 1) item.advance
  /-- What an item waited for has been found where its rule is complete. -/
  | complete {p : Nat} {item waiting : Item} : Charted g w p item → item.next? = none →
      Charted g w item.origin waiting → waiting.next? = some item.rule.left →
      Charted g w p waiting.advance

namespace Charted

variable {g : Grammar} {w f u : Word} {p : Nat} {item : Item}

theorem rule_mem (h : Charted g w p item) : item.rule ∈ g.rules := by
  induction h with
  | start hrule _ => exact hrule
  | predict _ _ _ hrule _ => exact hrule
  | scan _ _ _ _ ih => exact ih
  | complete _ _ _ _ _ ih => exact ih

theorem left_mem (h : Charted g w p item) : item.rule.left ∈ g.vocabulary.nonterminals := by
  induction h with
  | start _ hleft => exact hleft ▸ g.start_mem
  | predict _ _ hleft _ _ => exact hleft
  | scan _ _ _ _ ih => exact ih
  | complete _ _ _ _ _ ih => exact ih

theorem dot_le (h : Charted g w p item) : item.dot ≤ item.rule.right.length := by
  induction h with
  | start _ _ => exact Nat.zero_le _
  | predict _ _ _ _ _ => exact Nat.zero_le _
  | scan _ hnext _ _ _ => exact (List.getElem?_eq_some_iff.mp hnext).1
  | complete _ _ _ hnext _ _ => exact (List.getElem?_eq_some_iff.mp hnext).1

theorem origin_le (h : Charted g w p item) : item.origin ≤ p := by
  induction h with
  | start _ _ => exact le_rfl
  | predict _ _ _ _ _ => exact le_rfl
  | scan _ _ _ _ ih => exact ih.trans (Nat.le_succ _)
  | complete _ _ _ _ ih ihw => exact ihw.trans ih

theorem le_length (h : Charted g w p item) : p ≤ w.length := by
  induction h with
  | start _ _ => exact Nat.zero_le _
  | predict _ _ _ _ ih => exact ih
  | scan _ _ _ hinput _ => exact (List.getElem?_eq_some_iff.mp hinput).1
  | complete _ _ _ _ ih _ => exact ih

theorem next_isDeclared {c : Symbol} (h : Charted g w p item) (hnext : item.next? = some c) :
    g.vocabulary.isDeclared c = true := by
  obtain ⟨q, hq, -, hr⟩ := Grammar.mem_alternatives.mp (Grammar.mem_rules.mp h.rule_mem)
  exact Grammar.isDeclared_of_mem_alternatives hq hr (List.mem_of_getElem? hnext)

/-- A symbol that is expected and is no nonterminal is a terminal. -/
theorem next_mem_terminals {c : Symbol} (h : Charted g w p item) (hnext : item.next? = some c)
    (hc : c ∉ g.vocabulary.nonterminals) : c ∈ g.vocabulary.terminals := by
  rcases Grammar.isDeclared_iff.mp (h.next_isDeclared hnext) with hterminal | hnonterminal
  · exact hterminal
  · exact absurd hnonterminal hc

/-- A terminal that is expected and stands in the input has been found behind it. -/
theorem scan_terminal {c : Symbol} (h : Charted g w p item) (hnext : item.next? = some c)
    (hc : c ∈ g.vocabulary.terminals) (hinput : w[p]? = some c) : Charted g w (p + 1) item.advance :=
  h.scan hnext (fun hnonterminal => g.vocabulary.disjoint c hnonterminal hc) hinput

/-- **What an item has found** is the input from its origin to its position, and the front of its rule
yields it. -/
theorem yields (h : Charted g w p item) :
    g.Yields (item.rule.right.take item.dot) (w.slice item.origin p) := by
  induction h with
  | start _ _ =>
    rw [w.slice_self]
    exact .nil
  | predict _ _ _ _ _ =>
    rw [w.slice_self]
    exact .nil
  | @scan p item c hitem hnext hc hinput ih =>
    rw [Item.take_advance hnext, Item.origin_advance,
      ← w.slice_append hitem.origin_le (Nat.le_succ p), Word.slice_succ hinput]
    exact ih.append (.terminal (hitem.next_mem_terminals hnext hc) .nil)
  | @complete p item waiting hitem hnone hwaiting hnext ih ihw =>
    rw [Item.take_advance hnext, Item.origin_advance,
      ← w.slice_append hwaiting.origin_le hitem.origin_le]
    refine ihw.append (Grammar.yields_singleton hitem.rule_mem hitem.left_mem ?_)
    rwa [Item.take_of_next?_eq_none hnone] at ih

/-- **What an item expects is found**: if the input goes on with what the next symbols of its rule yield, the
dot moves over these symbols. -/
theorem found (h : Charted g w p item) (hf : g.Yields f u) (hrest : f <+: item.rest)
    (hu : u <+: w.drop p) :
    Charted g w (p + u.length) ⟨item.rule, item.dot + f.length, item.origin⟩ := by
  -- The induction follows what the symbols yield; it moves the dot and, with it, the position.
  induction hf generalizing item p with
  | nil => exact h
  | @terminal c f u hc _ ih =>
    obtain ⟨hinput, hafter⟩ := Word.of_cons_prefix_drop hu
    obtain ⟨hnext, hmore⟩ := Item.of_cons_prefix_rest hrest
    rw [List.length_cons, List.length_cons, Nat.add_comm u.length, Nat.add_comm f.length,
      ← Nat.add_assoc, ← Nat.add_assoc]
    exact ih (h.scan_terminal hnext hc hinput) hmore hafter
  | @rule rule f u v hrule hleft _ _ ihu ihv =>
    obtain ⟨hright, hafter⟩ := Word.of_append_prefix_drop hu
    obtain ⟨hnext, hmore⟩ := Item.of_cons_prefix_rest hrest
    -- The rule begins here, is completed behind `u`, and then the dot moves over its left side.
    have hdone := ihu (h.predict hnext hleft hrule) (List.prefix_refl _) hright
    have hnone : Item.next? ⟨rule, 0 + rule.right.length, p⟩ = none := by simp [Item.next?]
    rw [List.length_append, List.length_cons, Nat.add_comm f.length, ← Nat.add_assoc,
      ← Nat.add_assoc]
    exact ihv (hdone.complete hnone h hnext) hmore hafter

end Charted

variable {g : Grammar} {w : Word}

/-- **The rules of the start symbol complete the words that it yields.** -/
theorem exists_charted_complete_iff :
    (∃ item, Charted g w w.length item ∧ item.next? = none ∧ item.origin = 0 ∧
      item.rule.left = g.start) ↔ g.Yields [g.start] w := by
  constructor
  · rintro ⟨item, hitem, hnone, horigin, hleft⟩
    have hyields := hitem.yields
    rw [horigin, w.slice_zero_length, Item.take_of_next?_eq_none hnone] at hyields
    rw [← hleft]
    exact Grammar.yields_singleton hitem.rule_mem hitem.left_mem hyields
  · intro h
    generalize hform : [g.start] = form at h
    cases h with
    | nil => cases hform
    | terminal hc _ =>
      obtain ⟨rfl, -⟩ := List.cons.inj hform
      exact absurd hc (g.vocabulary.disjoint _ g.start_mem)
    | @rule rule form u v hrule _ hright hnil =>
      obtain ⟨hleft, rfl⟩ := List.cons.inj hform
      cases hnil
      rw [List.append_nil]
      have hlast := (Charted.start (w := u) hrule hleft.symm).found hright (List.prefix_refl _)
        (List.prefix_refl u)
      rw [Nat.zero_add] at hlast
      exact ⟨_, hlast, by simp [Item.next?], rfl, hleft.symm⟩

/-! ## Counting items -/

/-- How many places for a dot the rules of a grammar have. -/
def Grammar.dots (g : Grammar) : Nat :=
  (g.rules.map fun rule => rule.right.length + 1).sum

/-- All items that might belong into a chart up to a position. -/
def itemsUpTo (g : Grammar) (p : Nat) : List Item :=
  g.rules.flatMap fun rule =>
    (List.range (rule.right.length + 1)).flatMap fun dot =>
      (List.range (p + 1)).map fun origin => ⟨rule, dot, origin⟩

theorem Charted.mem_itemsUpTo {p : Nat} {item : Item} (h : Charted g w p item) :
    item ∈ itemsUpTo g p := by
  refine List.mem_flatMap.mpr ⟨item.rule, h.rule_mem, List.mem_flatMap.mpr ⟨item.dot, ?_, ?_⟩⟩
  · exact List.mem_range.mpr (Nat.lt_succ_of_le h.dot_le)
  · exact List.mem_map.mpr ⟨item.origin, List.mem_range.mpr (Nat.lt_succ_of_le h.origin_le), rfl⟩

theorem length_itemsUpTo (g : Grammar) (p : Nat) : (itemsUpTo g p).length = g.dots * (p + 1) := by
  rw [itemsUpTo, Grammar.dots, List.length_flatMap, ← List.sum_map_mul_right]
  simp [List.length_flatMap]

end PhraseStructure
