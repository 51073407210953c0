import PhraseStructure.Symbol

/-!
# Alphabets

An `Alphabet` is a finite set of symbols, kept as a list in strictly increasing code point order.  The
order is part of the type, so two alphabets with the same members are equal, and listing an alphabet
never depends on the order in which its symbols were declared.

## Main definitions

* `Alphabet`: a strictly increasing list of symbols.
* `Alphabet.insert`, `Alphabet.ofList`: adding one symbol, collecting many.

## Main results

* `Alphabet.mem_insert`, `Alphabet.mem_ofList`: collecting keeps exactly the symbols given.
* `Alphabet.common_eq_nil_iff`: nothing is common exactly when the two are disjoint.
-/

namespace PhraseStructure

/-- A finite set of symbols, listed in strictly increasing code point order. -/
structure Alphabet where
  /-- The members in increasing order. -/
  toList : List Symbol
  /-- Each member stands before all larger ones, so none is listed twice. -/
  sorted : toList.Pairwise (· < ·)
deriving DecidableEq

namespace Alphabet

instance : Membership Symbol Alphabet where
  mem A c := c ∈ A.toList

instance (c : Symbol) (A : Alphabet) : Decidable (c ∈ A) :=
  inferInstanceAs (Decidable (c ∈ A.toList))

@[simp]
theorem mem_toList {c : Symbol} {A : Alphabet} : c ∈ A.toList ↔ c ∈ A :=
  Iff.rfl

/-- The alphabet without symbols. -/
def empty : Alphabet where
  toList := []
  sorted := .nil

/-- Puts a symbol into its place of an increasing list, unless it is there already. -/
def place (c : Symbol) : List Symbol → List Symbol
  | [] => [c]
  | d :: ds => if c < d then c :: d :: ds else if c = d then d :: ds else d :: place c ds

theorem mem_place {c x : Symbol} {cs : List Symbol} : x ∈ place c cs ↔ x = c ∨ x ∈ cs := by
  induction cs with
  | nil => simp [place]
  | cons d ds ih =>
    rw [place]
    split
    · simp
    · split
      · next h => simp [h]
      · simp only [List.mem_cons, ih]
        grind

theorem pairwise_place {c : Symbol} {cs : List Symbol} (h : cs.Pairwise (· < ·)) :
    (place c cs).Pairwise (· < ·) := by
  induction cs with
  | nil => simp [place]
  | cons d ds ih =>
    obtain ⟨hd, hds⟩ := List.pairwise_cons.1 h
    rw [place]
    split
    · next hcd =>
      refine List.pairwise_cons.2 ⟨fun x hx => ?_, h⟩
      rcases List.mem_cons.1 hx with rfl | hx
      · exact hcd
      · exact Char.lt_trans hcd (hd x hx)
    · next hcd =>
      split
      · exact h
      · next hne =>
        refine List.pairwise_cons.2 ⟨fun x hx => ?_, ih hds⟩
        rcases mem_place.1 hx with rfl | hx
        · exact Decidable.byContradiction fun h =>
            hne (Char.le_antisymm (Char.not_lt.1 h) (Char.not_lt.1 hcd))
        · exact hd x hx

/-- The alphabet with one more symbol. -/
def insert (c : Symbol) (A : Alphabet) : Alphabet where
  toList := place c A.toList
  sorted := pairwise_place A.sorted

/-- The alphabet of the symbols of a list, in whatever order and however often they are given. -/
def ofList (cs : List Symbol) : Alphabet :=
  cs.foldr insert empty

@[simp]
theorem mem_insert {c x : Symbol} {A : Alphabet} : x ∈ A.insert c ↔ x = c ∨ x ∈ A :=
  mem_place

@[simp]
theorem not_mem_empty {c : Symbol} : ¬ c ∈ empty :=
  List.not_mem_nil

@[simp]
theorem mem_ofList {x : Symbol} {cs : List Symbol} : x ∈ ofList cs ↔ x ∈ cs := by
  induction cs with
  | nil => simp [ofList]
  | cons c cs ih => simpa [ofList] using or_congr_right ih

/-- Members common to two alphabets, in increasing order. -/
def common (A B : Alphabet) : List Symbol :=
  A.toList.filter (· ∈ B)

theorem common_eq_nil_iff {A B : Alphabet} : common A B = [] ↔ ∀ c ∈ A, ¬ c ∈ B := by
  simp [common, List.filter_eq_nil_iff]

end Alphabet

end PhraseStructure
