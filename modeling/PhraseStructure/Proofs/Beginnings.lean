import PhraseStructure.Proofs.Lexemes

/-!
# Beginnings of texts

A text that falls into lexemes may be broken off anywhere between two of them, and also within the layout behind
one.  What stands in front of that place can be completed in many ways: here it is completed on a new line.  The
line end closes a comment that may be under way there and keeps the last token apart from what follows, which is
not obvious for a left side, since an arrow may follow it at once (`Lexeme.Fits.before_newline`).

## Main definitions

* `Passed`: the front of a text falls into lexemes, with a layout behind the last one.
* `Writable`, `onLines`: lexemes that can be written down, each on a line of its own.
* `Within`: the front of a text falls into the first of some lexemes, and the others can be written down.

## Main results

* `Passed.append`, `Passed.append_within`, `Within.append`: beginnings are put together.
* `Passed.before_newline`: what was passed is passed in front of a new line, whatever the line holds.
* `spelled_onLines`: what can be written down falls into its lexemes.
-/

namespace PhraseStructure.RuleText

variable {cs mid rest t : List Char} {l : Lexeme} {ls ls' p q : List Lexeme} {n : Nat}

/-! ## Passing lexemes -/

theorem Layout.trans (h : Layout cs mid) (h' : Layout mid rest) : Layout cs rest := by
  induction h with
  | none => exact h'
  | blank hspace _ ih => exact .blank hspace (ih h')
  | comment htext hend _ ih => exact .comment htext hend (ih h')

/-- The front of a text falls into some lexemes, each with a layout before it, and a layout behind the last. -/
def Passed (ls : List Lexeme) (cs rest : List Char) : Prop :=
  ∃ mid, Spelled ls cs mid ∧ Layout mid rest

theorem Spelled.passed (h : Spelled ls cs rest) : Passed ls cs rest :=
  ⟨rest, h, .none⟩

theorem passed_of_layout (h : Layout cs rest) : Passed [] cs rest :=
  ⟨cs, .nil, h⟩

theorem Passed.append (h : Passed ls cs mid) (h' : Passed ls' mid rest) : Passed (ls ++ ls') cs rest := by
  obtain ⟨behind, hspelled, hlayout⟩ := h
  obtain ⟨behind', hspelled', hlayout'⟩ := h'
  cases hspelled' with
  | nil =>
    rw [List.append_nil]
    exact ⟨behind, hspelled, hlayout.trans hlayout'⟩
  | cons hfront hfits htail =>
    -- The layout behind the first lexemes is layout in front of the next one.
    have hnext := Spelled.cons (hlayout.trans hfront) hfits htail
    exact ⟨behind', spelled_append.mpr ⟨behind, hspelled, hnext⟩, hlayout'⟩

/-! ## Going on with a new line -/

theorem Layout.before_newline (h : Layout cs rest) :
    ∃ front, cs = front ++ rest ∧ ∀ t, Layout (front ++ '\n' :: t) t := by
  induction h with
  | none => exact ⟨[], rfl, fun t => .blank rfl .none⟩
  | @blank c _ _ hspace _ ih =>
    obtain ⟨front, rfl, hline⟩ := ih
    exact ⟨c :: front, rfl, fun t => .blank hspace (hline t)⟩
  | @comment text _ _ htext hend _ ih =>
    obtain ⟨front, rfl, hline⟩ := ih
    refine ⟨'#' :: (text ++ front), by simp, ?_⟩
    intro t
    rw [List.cons_append, List.append_assoc]
    refine .comment htext (Or.inr ?_) (hline t)
    -- The line of the comment ends where it did, or with the new line.
    cases front with
    | nil => rfl
    | cons c front =>
      rcases hend with hnil | hhead
      · cases hnil
      · exact hhead

/-- A layout is one in front of whatever begins with the same character. -/
theorem Layout.change (h : Layout cs rest) (hne : rest ≠ []) :
    ∃ front, cs = front ++ rest ∧ ∀ t : List Char, t.head? = rest.head? → Layout (front ++ t) t := by
  induction h with
  | none => exact ⟨[], rfl, fun t _ => .none⟩
  | @blank c _ _ hspace _ ih =>
    obtain ⟨front, rfl, hchange⟩ := ih hne
    exact ⟨c :: front, rfl, fun t ht => .blank hspace (hchange t ht)⟩
  | @comment text _ _ htext hend _ ih =>
    obtain ⟨front, rfl, hchange⟩ := ih hne
    refine ⟨'#' :: (text ++ front), by simp, ?_⟩
    intro t ht
    rw [List.cons_append, List.append_assoc]
    refine .comment htext (Or.inr ?_) (hchange t ht)
    rcases hend with hnil | hend
    · exact absurd (List.append_eq_nil_iff.mp hnil).2 hne
    · cases front with
      | nil => exact ht.trans hend
      | cons c front => exact hend

theorem isNameChar_newline : isNameChar '\n' = false := rfl

theorem isSideChar_newline : isSideChar '\n' = false := rfl

theorem Token.before_newline {isMember : Char → Bool} {chars front : List Char}
    (h : Token isMember chars (front ++ rest)) (hnewline : isMember '\n' = false) :
    Token isMember chars (front ++ '\n' :: t) := by
  refine ⟨h.ne_nil, h.members, h.not_comment, ?_⟩
  intro c hc
  cases front with
  | nil =>
    obtain rfl : '\n' = c := by simpa using hc
    exact hnewline
  | cons d front => exact h.maximal c hc

theorem LeftToken.before_newline {chars front : List Char} (h : LeftToken chars (front ++ rest))
    (harrow : front = ['-'] → rest.head? ≠ some '>') : LeftToken chars (front ++ '\n' :: t) := by
  refine ⟨h.ne_nil, h.members, h.not_comment, h.no_arrow, ?_⟩
  match front with
  | [] =>
    left
    intro c hc
    obtain rfl : '\n' = c := by simpa using hc
    exact isSideChar_newline
  | [d] =>
    rcases h.maximal with hmaximal | hprefix
    · exact Or.inl hmaximal
    · -- Half of an arrow would be left behind the token.
      simp only [List.cons_append, List.nil_append, List.cons_prefix_cons] at hprefix
      obtain ⟨rfl, ⟨tail, htail⟩⟩ := hprefix
      exact absurd (by rw [← htail]; rfl) (harrow rfl)
  | d :: e :: front =>
    rcases h.maximal with hmaximal | hprefix
    · exact Or.inl hmaximal
    · right
      simp only [List.cons_append, List.cons_prefix_cons] at hprefix ⊢
      obtain ⟨rfl, rfl, -⟩ := hprefix
      exact ⟨rfl, rfl, List.nil_prefix⟩

/-- A lexeme may stand in front of a line end, unless that cuts an arrow. -/
theorem Lexeme.Fits.before_newline {front : List Char} (h : l.Fits (front ++ rest))
    (harrow : front = ['-'] → rest.head? ≠ some '>') : l.Fits (front ++ '\n' :: t) := by
  cases l with
  | mark m => trivial
  | name s => exact Token.before_newline h isNameChar_newline
  | left s => exact LeftToken.before_newline h harrow
  | alternative s => exact Token.before_newline h isSideChar_newline

/-- Lexemes do not end within an arrow. -/
theorem Passed.head?_ne (h : Passed ls ('-' :: rest) rest) : rest.head? ≠ some '>' := by
  obtain ⟨behind, hspelled, hlayout⟩ := h
  intro hhead
  have hnone : ∀ {t}, Layout ('-' :: rest) t → t = '-' :: rest := by
    intro t ht
    have hsettled : Settled ('-' :: rest) := settled_cons.mpr ⟨by decide, by decide⟩
    cases ht with
    | none => rfl
    | blank hspace _ => cases hspace
  cases hspelled with
  | nil => exact absurd (congrArg List.length (hnone hlayout)) (by simp)
  | @cons l _ _ mid _ hfront hfits htail =>
    -- The hyphen is all there is of the first lexeme, which could have been longer then.
    have hle : rest.length ≤ mid.length := hlayout.length_le.trans htail.length_le
    have hsplit := hnone hfront
    have hne := List.length_pos_iff.mpr hfits.settled.1
    have hlength := congrArg List.length hsplit
    rw [List.length_append, List.length_cons] at hlength
    obtain ⟨hchars, hmid⟩ := List.append_inj (show l.chars ++ mid = ['-'] ++ rest from hsplit)
      (by rw [List.length_singleton]; omega)
    subst hmid
    cases l with
    | mark m => cases m <;> exact absurd hchars (by decide)
    | name s => exact absurd (hfits.maximal '>' hhead) (by decide)
    | alternative s => exact absurd (hfits.maximal '>' hhead) (by decide)
    | left s =>
      rcases hfits.maximal with hmaximal | ⟨tail, htail⟩
      · exact absurd (hmaximal '>' hhead) (by decide)
      · rw [← htail] at hhead
        cases hhead

/-- **What was passed is passed in front of a new line**, whatever the line holds. -/
theorem Passed.before_newline (h : Passed ls cs rest) :
    ∃ front, cs = front ++ rest ∧ ∀ t, Passed ls (front ++ '\n' :: t) t := by
  obtain ⟨behind, hspelled, hlayout⟩ := h
  induction hspelled with
  | nil =>
    obtain ⟨front, hfront, hline⟩ := hlayout.before_newline
    exact ⟨front, hfront, fun t => passed_of_layout (hline t)⟩
  | @cons l ls cs mid behind hfront hfits htail ih =>
    obtain ⟨front, rfl, hline⟩ := ih hlayout
    have harrow : front = ['-'] → rest.head? ≠ some '>' := by
      rintro rfl
      exact Passed.head?_ne ⟨behind, htail, hlayout⟩
    -- The layout in front of the lexeme does not see what stands behind it.
    have hhead : ∀ t, (l.chars ++ t).head? = l.chars.head? :=
      fun t => head?_of_append_eq rfl hfits.settled.1
    obtain ⟨front', hfront', hchange⟩ := hfront.change (by simp [hfits.settled.1])
    refine ⟨front' ++ (l.chars ++ front), by rw [hfront']; simp, ?_⟩
    intro t
    obtain ⟨behind', hspelled', hlayout'⟩ := hline t
    have hlexeme := hchange (l.chars ++ (front ++ '\n' :: t)) (by rw [hhead, hhead])
    simp only [List.append_assoc]
    exact ⟨behind', .cons hlexeme (hfits.before_newline harrow) hspelled', hlayout'⟩

/-! ## Lexemes that are still to come -/

/-- Lexemes that can be written down, each on a line of its own. -/
def Writable (ls : List Lexeme) : Prop :=
  ∀ l ∈ ls, l.Fits []

/-- Every lexeme on a line of its own. -/
def onLines (ls : List Lexeme) : List Char :=
  ls.flatMap fun l => '\n' :: l.chars

theorem spelled_onLines (h : Writable ls) : Spelled ls (onLines ls) [] := by
  induction ls with
  | nil => exact .nil
  | cons l ls ih =>
    obtain ⟨hl, hls⟩ := List.forall_mem_cons.mp h
    refine .cons (.blank rfl .none) ?_ (ih hls)
    cases ls with
    | nil => exact hl
    | cons l' ls =>
      have harrow : ([] : List Char) = ['-'] → ([] : List Char).head? ≠ some '>' := fun h => by cases h
      exact Lexeme.Fits.before_newline hl harrow

@[simp]
theorem fits_mark (m : Mark) : (Lexeme.mark m).Fits rest := trivial

theorem token_x {isMember : Char → Bool} (h : isMember 'x' = true) : Token isMember ['x'] [] := by
  refine ⟨List.cons_ne_nil _ _, ?_, ?_, ?_⟩
  · rwa [List.forall_mem_singleton]
  · simp
  · simp

@[simp]
theorem fits_name_x : (Lexeme.name "x").Fits [] :=
  token_x rfl

@[simp]
theorem fits_alternative_x : (Lexeme.alternative "x").Fits [] :=
  token_x rfl

@[simp]
theorem fits_left_x : (Lexeme.left "x").Fits [] := by
  have htoken : Token isSideChar ['x'] [] := token_x rfl
  refine ⟨htoken.ne_nil, htoken.members, htoken.not_comment, ?_, Or.inl htoken.maximal⟩
  exact fun harrow => absurd harrow.length_le (by simp)

/-- Up to a number of characters from its end, a text holds the first of some lexemes; the others can be
written down. -/
def Within (ls : List Lexeme) (cs : List Char) (left : Nat) : Prop :=
  ∃ begun others rest, ls = begun ++ others ∧ Writable others ∧ Passed begun cs rest ∧ rest.length = left

theorem Passed.within (h : Passed ls cs rest) : Within ls cs rest.length :=
  ⟨ls, [], rest, (List.append_nil ls).symm, by simp [Writable], h, rfl⟩

theorem Writable.within (h : Writable ls) (hlayout : Layout cs rest) : Within ls cs rest.length :=
  ⟨[], ls, rest, rfl, h, passed_of_layout hlayout, rfl⟩

theorem Within.append (h : Within p cs n) (hq : Writable q) : Within (p ++ q) cs n := by
  obtain ⟨begun, others, rest, rfl, hothers, hpassed, hleft⟩ := h
  refine ⟨begun, others ++ q, rest, List.append_assoc _ _ _, ?_, hpassed, hleft⟩
  intro l hl
  rcases List.mem_append.mp hl with hl | hl
  · exact hothers l hl
  · exact hq l hl

theorem Passed.append_within (h : Passed p cs mid) (hq : Within q mid n) : Within (p ++ q) cs n := by
  obtain ⟨begun, others, rest, rfl, hothers, hpassed, hleft⟩ := hq
  exact ⟨p ++ begun, others, rest, (List.append_assoc _ _ _).symm, hothers, h.append hpassed, hleft⟩

end PhraseStructure.RuleText
