import PhraseStructure.Alternative
import PhraseStructure.Vocabulary

/-!
# Productions

A production offers one or more *alternatives* for a nonempty *left side*.  Alternatives are listed in
order of first appearance and none is listed twice.

A `Production` is one that was read from text: its alternatives are words, and the empty word among them
is the mark `ε`.  A `Production Alternative` is composed by hand and may hold, next to the mark or in
its stead, an alternative that is spelled with no symbols.  The two are different alternatives, so such
a production lists them both.

## Main definitions

* `Production`: a left side with its alternatives.
* `Production.make`: the production of a rule, or why there is none.
* `Production.ofText`, `Production.compose`: the production of a rule that is read, or composed by hand.
* `Production.extend`: more alternatives for the same left side.
* `merge`: one production per left side, in order of first appearance.

## Main results

* `mem_appendNew`, `nodup_appendNew`: what adding an alternative does to the list of alternatives.
* `nodup_left_merge`: after merging no left side is shared.
-/

namespace PhraseStructure

/-! ### Lists without repetition -/

/-- Puts an element at the end of a list, unless the list has it already. -/
def appendNew {α : Type} [DecidableEq α] (xs : List α) (x : α) : List α :=
  if x ∈ xs then xs else xs ++ [x]

section AppendNew

variable {α : Type} [DecidableEq α]

theorem mem_appendNew {x y : α} {xs : List α} : y ∈ appendNew xs x ↔ y ∈ xs ∨ y = x := by
  rw [appendNew]
  split <;> grind

theorem nodup_appendNew {x : α} {xs : List α} (h : xs.Nodup) : (appendNew xs x).Nodup := by
  rw [appendNew]
  split
  · exact h
  · next hx =>
    refine List.nodup_append.2 ⟨h, by simp, ?_⟩
    simp only [List.mem_singleton]
    rintro a ha b rfl rfl
    exact hx ha

theorem mem_foldl_appendNew {y : α} {xs ys : List α} :
    y ∈ ys.foldl appendNew xs ↔ y ∈ xs ∨ y ∈ ys := by
  induction ys generalizing xs with
  | nil => simp
  | cons z zs ih => simp [ih, mem_appendNew, or_assoc]

theorem nodup_foldl_appendNew {xs ys : List α} (h : xs.Nodup) : (ys.foldl appendNew xs).Nodup := by
  induction ys generalizing xs with
  | nil => exact h
  | cons z zs ih => exact ih (nodup_appendNew h)

end AppendNew

/-! ### One production -/

/-- A nonempty left side with the alternatives that may replace it.  Alternatives are words unless said
otherwise. -/
structure Production (α : Type := Word) where
  /-- What is replaced. -/
  left : Word
  /-- What may stand in its place, in order of first appearance. -/
  alternatives : List α
  /-- There is something to replace. -/
  left_ne_nil : left ≠ []
  /-- There is something to replace it with. -/
  alternatives_ne_nil : alternatives ≠ []
  /-- No alternative is listed twice. -/
  nodup : alternatives.Nodup
deriving DecidableEq

namespace Production

variable {α : Type}

/-- The production of a rule; repeated alternatives are kept once. -/
def make [DecidableEq α] (left : Word) (alternatives : List α) : Except Fault (Production α) :=
  if left_ne_nil : left = [] then
    .error .emptyLeft
  else if alternatives_ne_nil : alternatives.foldl appendNew [] = [] then
    .error (.noAlternatives left)
  else
    .ok {
      left
      alternatives := alternatives.foldl appendNew []
      left_ne_nil
      alternatives_ne_nil
      nodup := nodup_foldl_appendNew .nil }

/-- A rule that is composed by hand: its left side is text, and its alternatives are given as they are. -/
def compose (left : String) (alternatives : List Alternative) : Except Fault (Production Alternative) :=
  make (Word.read left) alternatives

/-- A written rule whose sides are text, with `ε` read as the empty word. -/
def ofText (left : String) (alternatives : List String) : Except Fault Production :=
  make (Word.read left) (alternatives.map Word.read)

/-- The production with more alternatives at the end of its list. -/
def extend [DecidableEq α] (p : Production α) (alternatives : List α) : Production α where
  left := p.left
  alternatives := alternatives.foldl appendNew p.alternatives
  left_ne_nil := p.left_ne_nil
  alternatives_ne_nil := by
    obtain ⟨r, hr⟩ := List.exists_mem_of_ne_nil _ p.alternatives_ne_nil
    exact List.ne_nil_of_mem (mem_foldl_appendNew.2 (.inl hr))
  nodup := nodup_foldl_appendNew p.nodup

/-- Is the mark of the empty word among the alternatives? -/
def erases [Spelling α] (p : Production α) : Bool :=
  p.alternatives.any Spelling.isMark

@[simp]
theorem erases_iff {p : Production} : p.erases = true ↔ [] ∈ p.alternatives := by
  simp [erases]

/-- The left side, if it is a single symbol. -/
def singleLeft (p : Production α) : Option Symbol :=
  match p.left with
  | [c] => some c
  | _ => none

theorem singleLeft_eq_some_iff {p : Production α} {c : Symbol} :
    p.singleLeft = some c ↔ p.left = [c] := by
  rw [singleLeft]
  split <;> simp_all

/-- Every word of the production: its left side and then what its alternatives spell. -/
def sides [Spelling α] (p : Production α) : List Word :=
  p.left :: p.alternatives.map Spelling.word

/-- Alternatives that are words spell themselves. -/
theorem sides_eq (p : Production) : p.sides = p.left :: p.alternatives :=
  congrArg (p.left :: ·) (List.map_id p.alternatives)

/-- Succeeds if all sides are words over the vocabulary, and points at the first symbol that is not. -/
def check [Spelling α] (v : Vocabulary) (p : Production α) : Except Fault Unit :=
  p.sides.forM v.check

/-- The production as one line of text. -/
def text [Spelling α] (p : Production α) : String :=
  p.left.plain ++ " → " ++ " | ".intercalate (p.alternatives.map Spelling.shown)

end Production

/-! ### Merging -/

section Merging

variable {α : Type} [DecidableEq α]

/-- Adds a production to a list: to the entry with its left side, or else at the end. -/
def mergeInto : List (Production α) → Production α → List (Production α)
  | [], p => [p]
  | q :: qs, p =>
    if q.left = p.left then q.extend p.alternatives :: qs else q :: mergeInto qs p

/-- One production per left side; left sides and alternatives keep the order of first appearance. -/
def merge (productions : List (Production α)) : List (Production α) :=
  productions.foldl mergeInto []

theorem mem_left_mergeInto {qs : List (Production α)} {p : Production α} {l : Word} :
    l ∈ (mergeInto qs p).map (·.left) ↔ l ∈ qs.map (·.left) ∨ l = p.left := by
  induction qs with
  | nil => simp [mergeInto]
  | cons q qs ih =>
    rw [mergeInto]
    split
    · next h => simp only [List.map_cons, List.mem_cons, Production.extend, h]; grind
    · simp only [List.map_cons, List.mem_cons, ih]; grind

theorem nodup_left_mergeInto {qs : List (Production α)} {p : Production α}
    (h : (qs.map (·.left)).Nodup) : ((mergeInto qs p).map (·.left)).Nodup := by
  induction qs with
  | nil => simp [mergeInto]
  | cons q qs ih =>
    obtain ⟨hq, hqs⟩ := List.nodup_cons.1 h
    rw [mergeInto]
    split
    · exact List.nodup_cons.2 ⟨hq, hqs⟩
    · next hne =>
      refine List.nodup_cons.2 ⟨fun hm => ?_, ih hqs⟩
      rcases mem_left_mergeInto.1 hm with hm | hm
      · exact hq hm
      · exact hne hm

theorem nodup_left_foldl_mergeInto {ps qs : List (Production α)} (h : (qs.map (·.left)).Nodup) :
    ((ps.foldl mergeInto qs).map (·.left)).Nodup := by
  induction ps generalizing qs with
  | nil => exact h
  | cons p ps ih => exact ih (nodup_left_mergeInto h)

/-- After merging, no two productions share a left side. -/
theorem nodup_left_merge (ps : List (Production α)) : ((merge ps).map (·.left)).Nodup :=
  nodup_left_foldl_mergeInto (by simp)

end Merging

end PhraseStructure
