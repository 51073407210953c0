import PhraseStructure.Symbol

/-!
# Faults

A `Fault` is a reason why symbols and rules do not make up a grammar.  Faults are values that carry
their cause; the wording is fixed in one place, `Fault.message`.
-/

namespace PhraseStructure

/-- Why a choice of symbols is not a vocabulary. -/
inductive VocabularyFault where
  /-- There is no nonterminal at all. -/
  | noNonterminals
  /-- Some symbols are declared on both sides; they are listed in increasing order. -/
  | shared (symbols : List Symbol)
  /-- The mark of the empty word is declared as a symbol. -/
  | reserved
deriving DecidableEq, Repr

/-- Why symbols, rules and a start symbol do not make up a grammar. -/
inductive Fault where
  /-- The declared symbols are no vocabulary. -/
  | vocabulary (fault : VocabularyFault)
  /-- A rule has a left side and no alternative. -/
  | noAlternatives (left : Word)
  /-- A rule has no left side. -/
  | emptyLeft
  /-- A symbol of `context` is not declared. -/
  | undeclared (symbol : Symbol) (context : Word)
  /-- The start text is not one declared nonterminal. -/
  | start (text : String)
  /-- A declared symbol is not spelled with exactly one character. -/
  | notOneSymbol (text : String)
deriving DecidableEq, Repr

/-- Symbols set side by side, with a comma and a space between them. -/
def commaSeparated (symbols : List Symbol) : String :=
  ", ".intercalate (symbols.map String.singleton)

/-- The wording of a vocabulary fault. -/
def VocabularyFault.message : VocabularyFault → String
  | .noNonterminals => "no nonterminals declared"
  | .shared symbols =>
    "symbols declared both terminal and nonterminal: " ++ commaSeparated symbols
  | .reserved => "`ε` is reserved for the empty word"

/-- The wording of a fault. -/
def Fault.message : Fault → String
  | .vocabulary fault => "invalid symbol set: " ++ fault.message
  | .noAlternatives left => "production for `" ++ left.plain ++ "` has no alternatives"
  | .emptyLeft => "production with an empty left-hand side"
  | .undeclared symbol context =>
    "symbol `" ++ symbol.toString ++ "` used in `" ++ context.plain ++ "` is not declared"
  | .start text => "start symbol `" ++ text ++ "` is not a declared nonterminal"
  | .notOneSymbol text => "`" ++ text ++ "` is not a single-character symbol"

end PhraseStructure
