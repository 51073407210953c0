import PhraseStructure.Symbol

/-!
# Alternatives

What may take the place of a left side is an *alternative*.  When a form is rewritten, only the symbols of an
alternative count.  The conditions on rules ask for one thing more: they make an exception for the *mark* of the
empty word.  An alternative that is spelled with no symbols at all leaves as little behind as the mark does, but
it is not the mark, and no exception is made for it.

Text has no such alternative.  Blank text and `ε` are both read as the mark, so among alternatives that were read
the empty word is always the mark, and words say all there is to say.  Only rules that a program composes by hand
keep the two apart.  Rules, their place in the hierarchy, their drawing and derivations are therefore stated for
any type of alternatives that have a spelling.  Parsing and enumeration take alternatives to be words.

## Main definitions

* `Spelling`: the symbols of an alternative, and whether it is the mark.
* `Spelling.shown`: the text of an alternative.
* `Alternative`: an alternative that is composed by hand.
* `Alternative.ofWord`: the alternative that a word stands for when it was read from text.
-/

namespace PhraseStructure

/-- A type of alternatives: each has its symbols, and the mark of the empty word can be told from the others. -/
class Spelling (α : Type) where
  /-- The symbols that take the place of a left side. -/
  word : α → Word
  /-- Is the alternative the mark of the empty word? -/
  isMark : α → Bool
  /-- The mark stands for no symbols. -/
  word_eq_nil {r : α} : isMark r = true → word r = []

/-- Words that were read from text: the empty word can only have been written as the mark. -/
instance : Spelling Word where
  word w := w
  isMark w := w.isEmpty
  word_eq_nil := List.isEmpty_iff.mp

/-- The text of an alternative: its symbols, and `ε` for the mark. -/
def Spelling.shown {α : Type} [Spelling α] (r : α) : String :=
  Word.plain (if Spelling.isMark r then [emptyMark] else Spelling.word r)

@[simp]
theorem Word.spelling_word (w : Word) : Spelling.word w = w := rfl

@[simp]
theorem Word.isMark_iff {w : Word} : Spelling.isMark w = true ↔ w = [] :=
  List.isEmpty_iff

/-- An alternative that is composed by hand. -/
inductive Alternative where
  /-- The mark of the empty word. -/
  | mark
  /-- Some symbols, possibly none. -/
  | spelled (w : Word)
deriving DecidableEq, Repr

namespace Alternative

/-- The symbols of an alternative. -/
def word : Alternative → Word
  | mark => []
  | spelled w => w

/-- Is the alternative the mark? -/
def isMark : Alternative → Bool
  | mark => true
  | spelled _ => false

instance : Spelling Alternative where
  word := word
  isMark := isMark
  word_eq_nil {r} h := by
    cases r with
    | mark => rfl
    | spelled w => cases h

/-- The alternative that a word stands for when it was read from text. -/
def ofWord (w : Word) : Alternative :=
  if w = [] then mark else spelled w

@[simp]
theorem spelling_word_ofWord (w : Word) : Spelling.word (ofWord w) = w := by
  by_cases h : w = []
  · subst h
    rfl
  · rw [ofWord, if_neg h]
    rfl

@[simp]
theorem isMark_ofWord (w : Word) : Spelling.isMark (ofWord w) = Spelling.isMark w := by
  cases w with
  | nil => rfl
  | cons c w => rfl

end Alternative

end PhraseStructure
