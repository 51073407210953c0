import PhraseStructure.Format.RuleText
import Mathlib.Data.List.TakeWhile

/-!
# Lexemes of the text format

A text of the format falls into *lexemes*: marks, names and sides of rules.  A *layout* may stand before
each of them: blanks, line ends, and comments up to the end of their line.  All this is said here without
any reader, and then compared with what the readers of single lexemes do.

Two things make reading greedily as good as trying all ways.  No lexeme begins like a layout, so that a
layout which a lexeme follows is all the layout there is (`skipLayout_eq_iff`).  And tokens are maximal:
whatever follows a token does not belong to its class, so that the longest token is the only one
(`token_eq_some_iff`, `leftSide_eq_some_iff`).

## Main definitions

* `Layout`: blanks, line ends and comments at the front of a text.
* `Mark`, `Lexeme`, `Lexeme.Fits`: the pieces of a text, and what may follow them.
* `Spelled`: the front of a text falls into some lexemes.

## Main results

* `skipLayout_eq_iff`: skipping layout is taking the layout in front of a lexeme.
* `skip_eq_some_iff`: reading past the layout reads one lexeme; `skip_mark`, `skip_name`, `skip_left` and
  `skip_alternative` are its cases.
-/

namespace PhraseStructure.RuleText

variable {α β : Type} {c : Char} {cs mid rest : List Char}

/-! ## Layout -/

/-- A layout may stand at the front of the first text, with the second one behind it: blanks and line ends
in any number, and comments, which go on to the end of their line. -/
inductive Layout : List Char → List Char → Prop where
  | none {rest : List Char} : Layout rest rest
  | blank {c : Char} {cs rest : List Char} : isSpace c = true → Layout cs rest → Layout (c :: cs) rest
  | comment {text cs rest : List Char} : '\n' ∉ text → cs = [] ∨ cs.head? = some '\n' →
      Layout cs rest → Layout ('#' :: (text ++ cs)) rest

/-- No layout begins here. -/
def Settled (cs : List Char) : Prop :=
  ∀ c, cs.head? = some c → isSpace c = false ∧ c ≠ '#'

theorem settled_nil : Settled [] := by
  intro c hc
  cases hc

theorem settled_cons : Settled (c :: cs) ↔ isSpace c = false ∧ c ≠ '#' := by
  simp [Settled]

theorem skipLayout_of_settled (h : Settled cs) : skipLayout false cs = cs := by
  cases cs with
  | nil => rfl
  | cons c cs =>
    obtain ⟨hspace, hcomment⟩ := settled_cons.mp h
    simp [skipLayout, hspace, hcomment]

theorem skipLayout_blank (h : isSpace c = true) : skipLayout false (c :: cs) = skipLayout false cs := by
  simp [skipLayout, h]

theorem skipLayout_comment {text : List Char} (htext : '\n' ∉ text)
    (hend : cs = [] ∨ cs.head? = some '\n') :
    skipLayout false ('#' :: (text ++ cs)) = skipLayout false cs := by
  show skipLayout true (text ++ cs) = _
  induction text with
  | nil =>
    rcases hend with rfl | hend
    · rfl
    · obtain ⟨tail, rfl⟩ := List.head?_eq_some_iff.mp hend
      rfl
  | cons c text ih =>
    obtain ⟨hc, htext⟩ := not_or.mp (mt List.mem_cons.mpr htext)
    simp [skipLayout, Ne.symm hc, ih htext]

theorem settled_skipLayout (comment : Bool) (cs : List Char) : Settled (skipLayout comment cs) := by
  fun_induction skipLayout comment cs with
  | case1 => exact settled_nil
  | case2 _ ih => exact ih
  | case3 _ _ _ ih => exact ih
  | case4 _ _ _ _ _ ih => exact ih
  | case5 _ _ _ _ ih => exact ih
  | case6 _ c cs _ hspace hcomment =>
    exact settled_cons.mpr ⟨by simpa using hspace, hcomment⟩

/-- What is skipped is a layout, and inside a comment it is the rest of the comment and a layout. -/
theorem layout_skipLayout (cs : List Char) :
    Layout cs (skipLayout false cs) ∧
    ∃ text line, cs = text ++ line ∧ '\n' ∉ text ∧ (line = [] ∨ line.head? = some '\n') ∧
      Layout line (skipLayout true cs) := by
  induction cs with
  | nil => exact ⟨.none, [], [], rfl, List.not_mem_nil, Or.inl rfl, .none⟩
  | cons c cs ih =>
    obtain ⟨hlayout, text, line, hsplit, htext, hend, hline⟩ := ih
    constructor
    · -- Outside a comment the character is blank, begins a comment, or ends the layout.
      by_cases hspace : isSpace c = true
      · rw [skipLayout_blank hspace]
        exact .blank hspace hlayout
      · by_cases hcomment : c = '#'
        · rw [hcomment, show skipLayout false ('#' :: cs) = skipLayout true cs from rfl, hsplit]
          exact .comment htext hend (hsplit ▸ hline)
        · rw [skipLayout_of_settled (settled_cons.mpr ⟨by simpa using hspace, hcomment⟩)]
          exact .none
    · -- Inside a comment it ends the line or is part of the comment.
      by_cases hc : c = '\n'
      · rw [hc]
        exact ⟨[], '\n' :: cs, rfl, List.not_mem_nil, Or.inr rfl, .blank rfl hlayout⟩
      · have hskip : skipLayout true (c :: cs) = skipLayout true cs := by simp [skipLayout, hc]
        rw [hskip]
        refine ⟨c :: text, line, by rw [hsplit]; rfl, ?_, hend, hline⟩
        exact fun h => (List.mem_cons.mp h).elim (fun h => hc h.symm) htext

theorem Layout.skipLayout_eq (h : Layout cs rest) : skipLayout false cs = skipLayout false rest := by
  induction h with
  | none => rfl
  | blank hspace _ ih => rw [skipLayout_blank hspace, ih]
  | comment htext hend _ ih => rw [skipLayout_comment htext hend, ih]

/-- **A layout with no layout behind it is all the layout there is.** -/
theorem skipLayout_eq_iff (h : Settled rest) : skipLayout false cs = rest ↔ Layout cs rest := by
  constructor
  · rintro rfl
    exact (layout_skipLayout cs).1
  · intro hlayout
    rw [hlayout.skipLayout_eq, skipLayout_of_settled h]

theorem Layout.length_le (h : Layout cs rest) : rest.length ≤ cs.length := by
  induction h with
  | none => exact Nat.le_refl _
  | blank _ _ ih => exact Nat.le_succ_of_le ih
  | comment _ _ _ ih =>
    simp only [List.length_cons, List.length_append]
    omega

/-! ## Lexemes -/

/-- The words and signs that the format has for itself. -/
inductive Mark where
  | nonterminals
  | terminals
  | start
  | equals
  | opening
  | closing
  | comma
  | arrow
  | bar
  | semicolon
deriving DecidableEq, Repr

def Mark.text : Mark → String
  | nonterminals => "N"
  | terminals => "T"
  | start => "start"
  | equals => "="
  | opening => "\x7b"
  | closing => "\x7d"
  | comma => ","
  | arrow => "->"
  | bar => "|"
  | semicolon => ";"

/-- The pieces that a text falls into: marks, names, and the two kinds of sides of a rule. -/
inductive Lexeme where
  | mark (m : Mark)
  | name (text : String)
  | left (text : String)
  | alternative (text : String)
deriving DecidableEq, Repr

/-- Some characters of a class with no more of them behind. -/
structure Token (isMember : Char → Bool) (chars rest : List Char) : Prop where
  ne_nil : chars ≠ []
  members : ∀ c ∈ chars, isMember c = true
  not_comment : chars.head? ≠ some '#'
  maximal : ∀ c, rest.head? = some c → isMember c = false

/-- Characters of a left side.  An arrow ends them, so there is none inside, and one may stand behind them
although its characters are of their class. -/
structure LeftToken (chars rest : List Char) : Prop where
  ne_nil : chars ≠ []
  members : ∀ c ∈ chars, isSideChar c = true
  not_comment : chars.head? ≠ some '#'
  no_arrow : ¬ ['-', '>'] <:+: chars
  maximal : (∀ c, rest.head? = some c → isSideChar c = false) ∨ ['-', '>'] <+: rest

namespace Lexeme

def chars : Lexeme → List Char
  | mark m => m.text.toList
  | name text => text.toList
  | left text => text.toList
  | alternative text => text.toList

/-- A lexeme may stand in front of some text: it is a token of its class and could not be longer. -/
def Fits : Lexeme → List Char → Prop
  | mark _, _ => True
  | name text, rest => Token isNameChar text.toList rest
  | left text, rest => LeftToken text.toList rest
  | alternative text, rest => Token isSideChar text.toList rest

end Lexeme

/-- The front of a text falls into some lexemes, each with a layout before it; the second text is what is
left behind the last one. -/
inductive Spelled : List Lexeme → List Char → List Char → Prop where
  | nil {rest : List Char} : Spelled [] rest rest
  | cons {lexeme : Lexeme} {lexemes : List Lexeme} {cs mid rest : List Char} :
      Layout cs (lexeme.chars ++ mid) → lexeme.Fits mid → Spelled lexemes mid rest →
      Spelled (lexeme :: lexemes) cs rest

variable {l : Lexeme} {ls ls' : List Lexeme}

theorem spelled_nil : Spelled [] cs rest ↔ cs = rest := by
  constructor
  · rintro ⟨⟩
    rfl
  · rintro rfl
    exact .nil

theorem spelled_append : Spelled (ls ++ ls') cs rest ↔
    ∃ mid, Spelled ls cs mid ∧ Spelled ls' mid rest := by
  constructor
  · intro h
    induction ls generalizing cs with
    | nil => exact ⟨cs, .nil, h⟩
    | cons l ls ih =>
      obtain _ | ⟨hlayout, hfits, htail⟩ := h
      obtain ⟨mid, hls, hls'⟩ := ih htail
      exact ⟨mid, .cons hlayout hfits hls, hls'⟩
  · rintro ⟨mid, hls, hls'⟩
    induction hls with
    | nil => exact hls'
    | cons hlayout hfits _ ih => exact .cons hlayout hfits (ih hls')

theorem spelled_cons : Spelled (l :: ls) cs rest ↔
    ∃ mid, Spelled [l] cs mid ∧ Spelled ls mid rest := by
  rw [← List.singleton_append, spelled_append]

theorem spelled_singleton : Spelled [l] cs rest ↔ Layout cs (l.chars ++ rest) ∧ l.Fits rest := by
  constructor
  · rintro (_ | ⟨hlayout, hfits, ⟨⟩⟩)
    exact ⟨hlayout, hfits⟩
  · rintro ⟨hlayout, hfits⟩
    exact .cons hlayout hfits .nil

/-! ## Reading one lexeme -/

namespace Reader

/-- What a reader reads, with what it missed left aside. -/
theorem fst_bind (reader : Reader α) (next : α → Reader β) (cs : List Char) :
    ((reader >>= next) cs).1 = (reader cs).1.bind fun (a, rest) => (next a rest).1 := by
  show (Reader.bind reader next cs).1 = _
  rw [Reader.bind]
  rcases reader cs with ⟨_ | ⟨a, rest⟩, misses⟩
  · rfl
  · rfl

theorem fst_pure (a : α) (cs : List Char) : ((Pure.pure a : Reader α) cs).1 = some (a, cs) := rfl

theorem fst_text (s : String) (cs : List Char) :
    (text s cs).1 = (stripFront s.toList cs).map fun rest => ((), rest) := by
  rw [text]
  cases stripFront s.toList cs with
  | none => rfl
  | some rest => rfl

theorem text_eq_some_iff {s : String} {u : Unit} :
    (text s cs).1 = some (u, rest) ↔ cs = s.toList ++ rest := by
  rw [fst_text, Option.map_eq_some_iff]
  constructor
  · rintro ⟨_, h, ⟨⟩⟩
    exact stripFront_eq_some_iff.mp h
  · intro h
    exact ⟨rest, stripFront_eq_some_iff.mpr h, rfl⟩

end Reader

theorem fst_layout (cs : List Char) : (layout cs).1 = some ((), skipLayout false cs) := rfl

theorem head?_of_append_eq {xs ys : List Char} (h : cs = xs ++ ys) (hne : xs ≠ []) :
    cs.head? = xs.head? := by
  rw [h, List.head?_append]
  obtain ⟨x, xs, rfl⟩ := List.exists_cons_of_ne_nil hne
  rfl

/-- A token is read exactly if it stands at the front and could not be longer. -/
theorem token_eq_some_iff {isMember : Char → Bool} {piece : Piece} {s : String}
    (hsettled : Settled cs) :
    (token isMember piece cs).1 = some (s, rest) ↔
      cs = s.toList ++ rest ∧ Token isMember s.toList rest := by
  have hread : (token isMember piece cs).1 = some (s, rest) ↔
      cs.takeWhile isMember ≠ [] ∧ cs.takeWhile isMember = s.toList ∧
        cs.dropWhile isMember = rest := by
    rw [token]
    cases cs.takeWhile isMember with
    | nil => simp
    | cons c chars => simp [← String.toList_inj]
  rw [hread]
  constructor
  · rintro ⟨hne, hchars, hrest⟩
    have hsplit : cs = s.toList ++ rest := by
      rw [← hchars, ← hrest, List.takeWhile_append_dropWhile]
    rw [hchars] at hne
    refine ⟨hsplit, hne, ?_, ?_, ?_⟩
    · intro c hc
      rw [← hchars] at hc
      exact List.mem_takeWhile_imp hc
    · intro hhead
      exact (hsettled '#' ((head?_of_append_eq hsplit hne).trans hhead)).2 rfl
    · intro c hc
      have hd := List.head?_dropWhile_not isMember cs
      rw [hrest, hc] at hd
      simpa using hd
  · rintro ⟨hsplit, htoken⟩
    -- What follows is of another class, so nothing more is taken.
    have hstop : rest.takeWhile isMember = [] ∧ rest.dropWhile isMember = rest := by
      cases rest with
      | nil => exact ⟨rfl, rfl⟩
      | cons c rest => simp [htoken.maximal c rfl]
    rw [hsplit, List.takeWhile_append_of_pos htoken.members,
      List.dropWhile_append_of_pos htoken.members, hstop.1, hstop.2, List.append_nil]
    exact ⟨htoken.ne_nil, rfl, rfl⟩

/-- The characters of a left side are those before the first arrow and the first character of another
class. -/
theorem leftChars_spec (cs : List Char) :
    ∃ rest, cs = leftChars cs ++ rest ∧ (∀ c ∈ leftChars cs, isSideChar c = true) ∧
      ¬ ['-', '>'] <:+: leftChars cs ∧
      ((∀ c, rest.head? = some c → isSideChar c = false) ∨ ['-', '>'] <+: rest) := by
  induction cs with
  | nil => exact ⟨[], rfl, by simp [leftChars], by simp [leftChars], Or.inl (by simp)⟩
  | cons c cs ih =>
    rw [leftChars]
    split
    · next h =>
      obtain ⟨rest, hsplit, hmembers, harrow, hend⟩ := ih
      simp only [Bool.and_eq_true, Bool.not_eq_true', Bool.eq_false_iff, ne_eq,
        List.isPrefixOf_iff_prefix] at h
      refine ⟨rest, by rw [List.cons_append, ← hsplit], ?_, ?_, hend⟩
      · intro d hd
        rcases List.mem_cons.mp hd with rfl | hd
        · exact h.1
        · exact hmembers d hd
      · -- An arrow inside would be at the front, where there is none, or further on.
        intro hinfix
        rcases List.infix_cons_iff.mp hinfix with hfront | hlater
        · apply h.2
          rw [hsplit, ← List.cons_append]
          exact hfront.trans (List.prefix_append _ _)
        · exact harrow hlater
    · next h =>
      refine ⟨c :: cs, rfl, by simp, by simp, ?_⟩
      by_cases hc : isSideChar c = true
      · right
        simpa [hc] using h
      · left
        intro d hd
        obtain rfl : c = d := by simpa using hd
        simpa using hc

theorem leftChars_append {chars : List Char} (h : LeftToken chars rest) :
    leftChars (chars ++ rest) = chars := by
  obtain ⟨-, hmembers, -, harrow, hend⟩ := h
  induction chars with
  | nil =>
    cases rest with
    | nil => rfl
    | cons c rest =>
      rw [List.nil_append, leftChars, if_neg]
      rcases hend with hend | hend
      · simp [hend c rfl]
      · simp [List.isPrefixOf_iff_prefix, hend]
  | cons c chars ih =>
    have htail : leftChars (chars ++ rest) = chars :=
      ih (fun d hd => hmembers d (List.mem_cons_of_mem c hd))
        (fun h => harrow (List.infix_cons_iff.mpr (Or.inr h)))
    have hfront : ¬ ['-', '>'] <+: c :: (chars ++ rest) := by
      intro hprefix
      cases chars with
      | cons d chars =>
        apply harrow
        simp only [List.cons_append, List.cons_prefix_cons] at hprefix
        obtain ⟨rfl, rfl, -⟩ := hprefix
        exact ⟨[], chars, rfl⟩
      | nil =>
        -- The arrow would reach over the end of the token, whose next character is then of its class.
        obtain ⟨tail, hrest⟩ := (List.cons_prefix_cons.mp hprefix).2
        rw [List.nil_append] at hrest
        rcases hend with hend | ⟨tail', hrest'⟩
        · exact absurd (hend '>' (by rw [← hrest]; rfl)) (by decide)
        · rw [← hrest'] at hrest
          simp at hrest
    rw [List.cons_append, leftChars, htail, if_pos]
    simp only [hmembers c List.mem_cons_self, Bool.true_and, Bool.not_eq_true', Bool.eq_false_iff,
      ne_eq, List.isPrefixOf_iff_prefix]
    exact hfront

theorem leftSide_eq_some_iff {s : String} (hsettled : Settled cs) :
    (leftSide cs).1 = some (s, rest) ↔ cs = s.toList ++ rest ∧ LeftToken s.toList rest := by
  have hread : (leftSide cs).1 = some (s, rest) ↔
      leftChars cs ≠ [] ∧ leftChars cs = s.toList ∧ cs.drop (leftChars cs).length = rest := by
    rw [leftSide]
    cases leftChars cs with
    | nil => simp
    | cons c chars => simp [← String.toList_inj]
  rw [hread]
  constructor
  · rintro ⟨hne, hchars, hrest⟩
    obtain ⟨rest', hsplit, hmembers, harrow, hend⟩ := leftChars_spec cs
    rw [hchars] at hne hsplit hmembers harrow hrest
    obtain rfl : rest' = rest := by rw [← hrest, hsplit, List.drop_left]
    refine ⟨hsplit, hne, hmembers, ?_, harrow, hend⟩
    intro hhead
    exact (hsettled '#' ((head?_of_append_eq hsplit hne).trans hhead)).2 rfl
  · rintro ⟨hsplit, htoken⟩
    rw [hsplit, leftChars_append htoken, List.drop_left]
    exact ⟨htoken.ne_nil, rfl, rfl⟩

/-! ## A layout and a lexeme -/

theorem isSpace_eq_false_of_isSideChar (h : isSideChar c = true) : isSpace c = false := by
  simp only [isSideChar, Bool.not_eq_true', Bool.or_eq_false_iff] at h
  exact h.1.1

theorem settled_of_members {chars : List Char} (hne : chars ≠ [])
    (hmembers : ∀ c ∈ chars, isSideChar c = true) (hcomment : chars.head? ≠ some '#') :
    Settled (chars ++ rest) := by
  obtain ⟨c, chars, rfl⟩ := List.exists_cons_of_ne_nil hne
  refine settled_cons.mpr ⟨isSpace_eq_false_of_isSideChar (hmembers c List.mem_cons_self), ?_⟩
  rintro rfl
  exact hcomment rfl

theorem isSideChar_of_isNameChar (h : isNameChar c = true) : isSideChar c = true := by
  simp only [isNameChar, Bool.and_eq_true] at h
  exact h.1

theorem Mark.exists_cons (m : Mark) :
    ∃ c cs, m.text.toList = c :: cs ∧ isSpace c = false ∧ c ≠ '#' := by
  cases m <;> exact ⟨_, _, rfl, by decide, by decide⟩

/-- No lexeme is empty, and none begins like a layout. -/
theorem Lexeme.Fits.settled (h : l.Fits rest) : l.chars ≠ [] ∧ Settled (l.chars ++ rest) := by
  cases l with
  | mark m =>
    obtain ⟨c, cs, hchars, hspace, hcomment⟩ := m.exists_cons
    rw [Lexeme.chars, hchars]
    exact ⟨List.cons_ne_nil c cs, settled_cons.mpr ⟨hspace, hcomment⟩⟩
  | name s =>
    have hmembers := fun c hc => isSideChar_of_isNameChar (h.members c hc)
    exact ⟨h.ne_nil, settled_of_members h.ne_nil hmembers h.not_comment⟩
  | left s => exact ⟨h.ne_nil, settled_of_members h.ne_nil h.members h.not_comment⟩
  | alternative s => exact ⟨h.ne_nil, settled_of_members h.ne_nil h.members h.not_comment⟩

/-- **Reading past the layout reads one lexeme**, for a reader that reads it where no layout begins. -/
theorem skip_eq_some_iff {reader : Reader α} {a : α}
    (hreads : ∀ {cs}, Settled cs →
      ((reader cs).1 = some (a, rest) ↔ cs = l.chars ++ rest ∧ l.Fits rest)) :
    (reader (skipLayout false cs)).1 = some (a, rest) ↔ Spelled [l] cs rest := by
  rw [hreads (settled_skipLayout false cs), spelled_singleton]
  constructor
  · rintro ⟨hskip, hfits⟩
    exact ⟨(skipLayout_eq_iff hfits.settled.2).mp hskip, hfits⟩
  · rintro ⟨hlayout, hfits⟩
    exact ⟨(skipLayout_eq_iff hfits.settled.2).mpr hlayout, hfits⟩

theorem skip_mark (m : Mark) {u : Unit} :
    (Reader.text m.text (skipLayout false cs)).1 = some (u, rest) ↔ Spelled [.mark m] cs rest := by
  refine skip_eq_some_iff fun _ => ?_
  rw [Reader.text_eq_some_iff]
  exact (and_iff_left trivial).symm

theorem skip_name {s : String} :
    (name (skipLayout false cs)).1 = some (s, rest) ↔ Spelled [.name s] cs rest :=
  skip_eq_some_iff token_eq_some_iff

theorem skip_left {s : String} :
    (leftSide (skipLayout false cs)).1 = some (s, rest) ↔ Spelled [.left s] cs rest :=
  skip_eq_some_iff leftSide_eq_some_iff

theorem skip_alternative {s : String} :
    (alternative (skipLayout false cs)).1 = some (s, rest) ↔ Spelled [.alternative s] cs rest :=
  skip_eq_some_iff token_eq_some_iff

theorem Spelled.length_le (h : Spelled ls cs rest) : rest.length ≤ cs.length := by
  induction h with
  | nil => exact Nat.le_refl _
  | cons hlayout _ _ ih =>
    have := hlayout.length_le
    rw [List.length_append] at this
    omega

theorem Spelled.length_lt (h : Spelled (l :: ls) cs rest) : rest.length < cs.length := by
  obtain _ | ⟨hlayout, hfits, htail⟩ := h
  have hne := List.length_pos_iff.mpr hfits.settled.1
  have hfront := hlayout.length_le
  have hback := htail.length_le
  rw [List.length_append] at hfront
  omega

/-- What stands behind the layout begins with the first lexeme. -/
theorem Spelled.head?_skipLayout (h : Spelled (l :: ls) cs rest) :
    (skipLayout false cs).head? = l.chars.head? := by
  obtain _ | ⟨hlayout, hfits, -⟩ := h
  obtain ⟨hne, hsettled⟩ := hfits.settled
  exact head?_of_append_eq ((skipLayout_eq_iff hsettled).mpr hlayout) hne

end PhraseStructure.RuleText
