/-!
# Symbols and words

Everything in this library is spelled with single characters.  A *symbol* is one character, a *word*
(or sentential form) is a finite sequence of symbols, and all lengths count symbols.

The empty word has no visible spelling, so text writes it as the mark `ε`.  The mark is read back as
the empty word only when it stands alone, and no grammar may declare it as a symbol.

## Main definitions

* `Symbol`, `Word`: characters and sequences of characters.
* `Word.read`: the word that a piece of text stands for.
* `Word.plain`, `Word.shown`: the text of a word, with an empty word left blank or marked.
* `stripFront`: a word taken off the front of another.
-/

namespace PhraseStructure

/-- A symbol of a grammar is one character. -/
abbrev Symbol := Char

/-- Symbols are hashed by their code points. -/
instance : Hashable Symbol where
  hash c := c.val.toUInt64

/-- A word or sentential form: a finite sequence of symbols. -/
abbrev Word := List Symbol

/-- The mark that stands for the empty word in text. -/
def emptyMark : Symbol := 'ε'

namespace Word

/-- The word spelled by some characters: the mark alone spells the empty word. -/
def ofChars (cs : List Char) : Word :=
  if cs = [emptyMark] then [] else cs

/-- The word that a piece of text stands for: `""` and `"ε"` both read as the empty word. -/
def read (text : String) : Word :=
  ofChars text.toList

/-- The characters of a word as text; the empty word leaves nothing to see. -/
def plain (w : Word) : String :=
  String.ofList w

/-- The text of a word with the empty word shown as `ε`. -/
def shown (w : Word) : String :=
  plain (if w = [] then [emptyMark] else w)

@[simp]
theorem ofChars_nil : ofChars [] = [] := by
  simp [ofChars, emptyMark]

@[simp]
theorem ofChars_emptyMark : ofChars [emptyMark] = [] := by
  simp [ofChars]

/-- Showing a word and reading the text back gives the word, unless it is the bare mark. -/
theorem read_shown {w : Word} (h : w ≠ [emptyMark]) : read (shown w) = w := by
  by_cases hw : w = [] <;> simp [read, shown, plain, ofChars, hw, h]

end Word

/-- What is left of a form after taking a word off its front. -/
def stripFront : Word → Word → Option Word
  | [], form => some form
  | _ :: _, [] => none
  | c :: cs, d :: ds => if c = d then stripFront cs ds else none

theorem stripFront_eq_some_iff {w form rest : Word} :
    stripFront w form = some rest ↔ form = w ++ rest := by
  induction w generalizing form with
  | nil => simp [stripFront]
  | cons c cs ih =>
    cases form with
    | nil => simp [stripFront]
    | cons d ds =>
      by_cases h : c = d
      · simp [stripFront, h, ih]
      · simp [stripFront, h, Ne.symm h]

end PhraseStructure
