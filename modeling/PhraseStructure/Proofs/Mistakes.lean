import PhraseStructure.Proofs.Beginnings
import PhraseStructure.Proofs.RuleText

/-!
# Errors do not point past the first mistake

An error in a text names a line and a column.  In front of that place everything is as it may be: the text up to
there is the beginning of some text that is accepted.  So whoever looks for a mistake has to look at the place
named or further on, never in front of it.

The place is the furthest one where a reader missed something, among all that were tried and given up on the way.
It is enough to know one thing of every single miss, then: what was read up to there are the first lexemes of some
description, perhaps with a layout behind them (`Begins`).  Readers keep this when they are put together, because
what they read before falls into lexemes, and what they would read next can be made up: a list is closed, a rule
gets an alternative `x`.  For the readers of the format this is done from single lexemes up to descriptions
(`begins_of_mem_description`).

## Main definitions

* `Mistake.offset`: the number of characters in front of a line and a column.
* `joined`: the lexemes of things with others between them.
* `Begins`: the front of a text holds the first lexemes of some description.

## Main results

* `Mistake.offset_after`: the offset undoes what line and column count.
* `begins_of_mem_description`: all that is missed is missed within a description.
* `Begins.exists_parse`: the front of a text that begins a description begins some accepted text.
* `place_never_beyond_mistake`: the text in front of the place of an error begins some accepted text.
-/

namespace PhraseStructure.RuleText

variable {α : Type} {cs rest : List Char} {ls : List Lexeme} {n : Nat} {miss : Miss}

/-! ## Lines and columns -/

namespace Mistake

/-- The number of characters in front of the line with a number, counted from zero. -/
def lineStart : Nat → List Char → Nat
  | 0, _ => 0
  | _ + 1, [] => 0
  | n + 1, c :: cs => 1 + if c = '\n' then lineStart n cs else lineStart (n + 1) cs

/-- The number of characters in front of the place of a mistake. -/
def offset (m : Mistake) (cs : List Char) : Nat :=
  lineStart (m.line - 1) cs + (m.column - 1)

theorem takeWhile_reverse_cons {c : Char} {before : List Char} (h : c = '\n' ∨ '\n' ∈ before) :
    (c :: before).reverse.takeWhile (· ≠ '\n') = before.reverse.takeWhile (· ≠ '\n') := by
  rw [List.reverse_cons, List.takeWhile_append]
  split
  · next hall =>
    -- The whole rest would be a single line, so the character ends a line.
    have hline : before.reverse.takeWhile (· ≠ '\n') = before.reverse :=
      (List.takeWhile_prefix _).eq_of_length hall
    have hnone : '\n' ∉ before := by
      intro hmem
      have hne := List.mem_takeWhile_imp (hline ▸ List.mem_reverse.mpr hmem)
      simp at hne
    obtain rfl := h.resolve_right hnone
    rw [hline]
    exact List.append_nil _
  · rfl

theorem takeWhile_reverse_of_notMem {before : List Char} (h : '\n' ∉ before) :
    before.reverse.takeWhile (· ≠ '\n') = before.reverse := by
  rw [List.takeWhile_eq_self_iff]
  intro c hc
  simp only [decide_eq_true_eq]
  rintro rfl
  exact h (List.mem_reverse.mp hc)

/-- **The offset undoes what line and column count.** -/
theorem offset_after (before rest : List Char) (pieces : List Piece) :
    (after before pieces).offset (before ++ rest) = before.length := by
  show lineStart (before.count '\n') (before ++ rest) + (before.reverse.takeWhile (· ≠ '\n')).length = _
  induction before with
  | nil => simp [lineStart]
  | cons c before ih =>
    by_cases hc : c = '\n'
    · subst hc
      rw [takeWhile_reverse_cons (Or.inl rfl), List.count_cons_self, List.cons_append, lineStart, if_pos rfl,
        List.length_cons]
      omega
    · rw [List.count_cons_of_ne hc]
      cases hcount : before.count '\n' with
      | zero =>
        have hmem : '\n' ∉ c :: before := by
          rw [List.mem_cons, not_or]
          exact ⟨Ne.symm hc, List.count_eq_zero.mp hcount⟩
        rw [takeWhile_reverse_of_notMem hmem, lineStart, List.length_reverse, Nat.zero_add]
      | succ k =>
        have hmem : '\n' ∈ before := List.count_pos_iff.mp (by omega)
        rw [hcount] at ih
        rw [takeWhile_reverse_cons (Or.inr hmem), List.cons_append, lineStart, if_neg hc, List.length_cons]
        omega

/-- The furthest place is one of those where something was missed, or the front of the text. -/
theorem furthest_cases (length : Nat) (misses : List Miss) :
    furthest length misses ≤ length ∧
      (furthest length misses = length ∨ ∃ miss ∈ misses, furthest length misses = miss.left) := by
  induction misses generalizing length with
  | nil => exact ⟨le_rfl, Or.inl rfl⟩
  | cons miss misses ih =>
    obtain ⟨hle, hcases⟩ := ih (min length miss.left)
    refine ⟨hle.trans (min_le_left _ _), ?_⟩
    show furthest (min length miss.left) misses = _ ∨ _
    rcases hcases with heq | ⟨other, hother, heq⟩
    · rcases Nat.le_total length miss.left with hmin | hmin
      · exact Or.inl (heq.trans (min_eq_left hmin))
      · exact Or.inr ⟨miss, List.mem_cons_self, heq.trans (min_eq_right hmin)⟩
    · exact Or.inr ⟨other, List.mem_cons_of_mem _ hother, heq⟩

end Mistake

/-! ## What is missed by readers that are put together -/

namespace Reader

variable {β : Type} {reader : Reader α} {count : Nat}

theorem mem_misses_bind {next : α → Reader β} :
    miss ∈ ((reader >>= next) cs).2 ↔
      miss ∈ (reader cs).2 ∨ ∃ a rest, (reader cs).1 = some (a, rest) ∧ miss ∈ (next a rest).2 := by
  show miss ∈ (Reader.bind reader next cs).2 ↔ _
  rw [Reader.bind]
  rcases reader cs with ⟨_ | ⟨a, rest⟩, misses⟩
  · simp
  · simp [and_assoc]

theorem mem_misses_repeated_succ :
    miss ∈ (repeated reader (count + 1) cs).2 ↔ miss ∈ (reader cs).2 ∨
      ∃ a rest, (reader cs).1 = some (a, rest) ∧ miss ∈ (repeated reader count rest).2 := by
  rw [repeated]
  rcases reader cs with ⟨_ | ⟨a, rest⟩, misses⟩
  · simp
  · simp [and_assoc]

theorem mem_misses_separatedBy {separator : Reader Unit} :
    miss ∈ (separatedBy reader separator cs).2 ↔ miss ∈ (reader cs).2 ∨
      ∃ a rest, (reader cs).1 = some (a, rest) ∧ miss ∈ (many (separator >>= fun _ => reader) rest).2 := by
  rw [show (separator >>= fun _ => reader) = Reader.bind separator fun _ => reader from rfl, separatedBy]
  rcases reader cs with ⟨_ | ⟨a, rest⟩, misses⟩
  · simp
  · simp [and_assoc]

theorem notMem_misses_pure (a : α) : miss ∉ ((Pure.pure a : Reader α) cs).2 :=
  List.not_mem_nil

end Reader

theorem layout_bind (next : Unit → Reader α) (cs : List Char) :
    (layout >>= next) cs = next () (skipLayout false cs) := rfl

/-- A fixed text is missed where it should begin. -/
theorem Writable.within_of_mem_text {s : String} (hls : Writable ls)
    (h : miss ∈ (Reader.text s (skipLayout false cs)).2) : Within ls cs miss.left := by
  rw [Reader.text] at h
  cases hstrip : stripFront s.toList (skipLayout false cs) with
  | some rest => simp [hstrip] at h
  | none =>
    obtain rfl := List.mem_singleton.mp (hstrip ▸ h)
    exact hls.within (layout_skipLayout cs).1

/-- A token is missed where it should begin, or one more character is missed at its end. -/
theorem left_of_mem_token {isMember : Char → Bool} {piece : Piece}
    (h : miss ∈ (token isMember piece cs).2) :
    miss.left = cs.length ∨
      ∃ s rest, (token isMember piece cs).1 = some (s, rest) ∧ miss.left = rest.length := by
  have hsplit : cs.takeWhile isMember ++ cs.dropWhile isMember = cs := List.takeWhile_append_dropWhile
  rw [token] at h ⊢
  cases htake : cs.takeWhile isMember with
  | nil =>
    rw [htake, List.nil_append] at hsplit
    obtain rfl := List.mem_singleton.mp (htake ▸ h)
    exact Or.inl (congrArg List.length hsplit)
  | cons c chars =>
    obtain rfl := List.mem_singleton.mp (htake ▸ h)
    exact Or.inr ⟨_, _, rfl, rfl⟩

theorem left_of_mem_leftSide (h : miss ∈ (leftSide cs).2) :
    miss.left = cs.length ∨ ∃ s rest, (leftSide cs).1 = some (s, rest) ∧ miss.left = rest.length := by
  have hone : ∀ {b : Bool} {only : Miss}, (miss ∈ if b then [] else [only]) → miss = only := by
    intro b only hmem
    cases b with
    | true => cases hmem
    | false => exact List.mem_singleton.mp hmem
  rw [leftSide] at h ⊢
  cases hchars : leftChars cs with
  | nil =>
    rw [hchars] at h
    obtain rfl := hone h
    exact Or.inl rfl
  | cons c chars =>
    rw [hchars] at h
    obtain rfl := hone h
    exact Or.inr ⟨_, _, rfl, rfl⟩

/-- What is missed by a reader of single lexemes is missed within such a lexeme. -/
theorem exists_within_of_lexeme {reader : Reader String} {piece : String → Lexeme}
    (hreads : ∀ {s rest}, (reader (skipLayout false cs)).1 = some (s, rest) ↔ Spelled [piece s] cs rest)
    (hplace : ∀ {cs}, miss ∈ (reader cs).2 → miss.left = cs.length ∨
      ∃ s rest, (reader cs).1 = some (s, rest) ∧ miss.left = rest.length)
    (hpiece : (piece "x").Fits []) (h : miss ∈ (reader (skipLayout false cs)).2) :
    ∃ s, Within [piece s] cs miss.left := by
  rcases hplace h with hleft | ⟨s, rest, hread, hleft⟩
  · rw [hleft]
    refine ⟨"x", Writable.within ?_ (layout_skipLayout cs).1⟩
    rwa [Writable, List.forall_mem_singleton]
  · rw [hleft]
    exact ⟨s, (hreads.mp hread).passed.within⟩

theorem exists_within_of_mem_name (h : miss ∈ (name (skipLayout false cs)).2) :
    ∃ s, Within [.name s] cs miss.left :=
  exists_within_of_lexeme skip_name left_of_mem_token fits_name_x h

theorem exists_within_of_mem_alternative (h : miss ∈ (alternative (skipLayout false cs)).2) :
    ∃ s, Within [.alternative s] cs miss.left :=
  exists_within_of_lexeme skip_alternative left_of_mem_token fits_alternative_x h

theorem exists_within_of_mem_leftSide (h : miss ∈ (leftSide (skipLayout false cs)).2) :
    ∃ s, Within [.left s] cs miss.left :=
  exists_within_of_lexeme skip_left left_of_mem_leftSide fits_left_x h

/-! ## What is missed by repetitions -/

section Repetitions

variable {reader : Reader α} {Valid : α → Prop} {pieces first more : α → List Lexeme}
  {separator : Reader Unit} {as : List α}

/-- **What is missed by a repetition** is missed within a list of what it repeats. -/
theorem exists_within_of_mem_many
    (hreads : ∀ {cs a rest}, (reader cs).1 = some (a, rest) ↔ Valid a ∧ Spelled (pieces a) cs rest)
    (hmisses : ∀ {cs}, miss ∈ (reader cs).2 → ∃ a, Valid a ∧ Within (pieces a) cs miss.left)
    (h : miss ∈ (Reader.many reader cs).2) :
    ∃ as : List α, (∀ a ∈ as, Valid a) ∧ Within (as.flatMap pieces) cs miss.left := by
  have hfirst : ∀ {cs}, miss ∈ (reader cs).2 →
      ∃ as : List α, (∀ a ∈ as, Valid a) ∧ Within (as.flatMap pieces) cs miss.left := by
    intro cs h
    obtain ⟨a, ha, hwithin⟩ := hmisses h
    exact ⟨[a], by simpa using ha, by simpa using hwithin⟩
  rw [Reader.many] at h
  generalize cs.length + 1 = count at h
  induction count generalizing cs with
  | zero => cases h
  | succ count ih =>
    rcases Reader.mem_misses_repeated_succ.mp h with h | ⟨a, mid, hread, h⟩
    · exact hfirst h
    · obtain ⟨ha, hspelled⟩ := hreads.mp hread
      obtain ⟨as, has, hwithin⟩ := ih h
      exact ⟨a :: as, List.forall_mem_cons.mpr ⟨ha, has⟩, hspelled.passed.append_within hwithin⟩

/-- The lexemes of a first thing and of more that follow it. -/
def joined (first more : α → List Lexeme) : List α → List Lexeme
  | [] => []
  | a :: as => first a ++ as.flatMap more

theorem listed_eq_joined (separator : Mark) (piece : String → Lexeme) (ss : List String) :
    listed separator piece ss = joined (fun s => [piece s]) (fun s => [.mark separator, piece s]) ss := by
  cases ss <;> rfl

theorem joined_self (pieces : α → List Lexeme) (as : List α) : joined pieces pieces as = as.flatMap pieces := by
  cases as <;> rfl

theorem passed_of_separatedBy
    (hfirst : ∀ {cs a rest}, (reader (skipLayout false cs)).1 = some (a, rest) ↔
      Valid a ∧ Spelled (first a) cs rest)
    (hmore : ∀ {cs a rest}, ((separator >>= fun _ => reader) cs).1 = some (a, rest) ↔
      Valid a ∧ Spelled (more a) cs rest)
    (hne : ∀ a, more a ≠ [])
    (h : (Reader.separatedBy reader separator (skipLayout false cs)).1 = some (as, rest)) :
    (∀ a ∈ as, Valid a) ∧ Passed (joined first more as) cs rest := by
  rcases separatedBy_eq_some_iff.mp h with ⟨rfl, rfl, -⟩ | ⟨a, as, mid, rfl, hread, hmany⟩
  · exact ⟨by simp, passed_of_layout (layout_skipLayout cs).1⟩
  · obtain ⟨ha, hspelled⟩ := hfirst.mp hread
    obtain ⟨has, hspelleds, -⟩ := (many_eq_some_iff hmore hne).mp hmany
    exact ⟨List.forall_mem_cons.mpr ⟨ha, has⟩, (spelled_append.mpr ⟨mid, hspelled, hspelleds⟩).passed⟩

theorem exists_within_of_mem_separatedBy
    (hfirst : ∀ {cs a rest}, (reader (skipLayout false cs)).1 = some (a, rest) ↔
      Valid a ∧ Spelled (first a) cs rest)
    (hmore : ∀ {cs a rest}, ((separator >>= fun _ => reader) cs).1 = some (a, rest) ↔
      Valid a ∧ Spelled (more a) cs rest)
    (hfirst' : ∀ {cs}, miss ∈ (reader (skipLayout false cs)).2 →
      ∃ a, Valid a ∧ Within (first a) cs miss.left)
    (hmore' : ∀ {cs}, miss ∈ ((separator >>= fun _ => reader) cs).2 →
      ∃ a, Valid a ∧ Within (more a) cs miss.left)
    (h : miss ∈ (Reader.separatedBy reader separator (skipLayout false cs)).2) :
    ∃ as, (∀ a ∈ as, Valid a) ∧ Within (joined first more as) cs miss.left := by
  rcases Reader.mem_misses_separatedBy.mp h with h | ⟨a, mid, hread, h⟩
  · obtain ⟨a, ha, hwithin⟩ := hfirst' h
    exact ⟨[a], by simpa using ha, by simpa [joined] using hwithin⟩
  · obtain ⟨ha, hspelled⟩ := hfirst.mp hread
    obtain ⟨as, has, hwithin⟩ := exists_within_of_mem_many hmore hmore' h
    exact ⟨a :: as, List.forall_mem_cons.mpr ⟨ha, has⟩, hspelled.passed.append_within hwithin⟩

end Repetitions

/-! ## What is missed by the readers of the format -/

theorem exists_within_of_mem_commaName
    (h : miss ∈ (((do layout; Reader.text ","; layout) >>= fun _ => name : Reader String) cs).2) :
    ∃ s, Within [.mark .comma, .name s] cs miss.left := by
  rcases Reader.mem_misses_bind.mp h with h | ⟨_, mid, hread, h⟩
  · rw [layout_bind, Reader.mem_misses_bind] at h
    rcases h with h | ⟨_, _, _, h⟩
    · exact ⟨"x", Writable.within_of_mem_text (by simp [Writable]) h⟩
    · cases h
  · rw [layout_bind, Reader.fst_bind] at hread
    obtain ⟨⟨_, behind⟩, hcomma, heq⟩ := Option.bind_eq_some_iff.mp hread
    cases heq
    obtain ⟨s, hwithin⟩ := exists_within_of_mem_name h
    exact ⟨s, ((skip_mark .comma).mp hcomma).passed.append_within hwithin⟩

theorem exists_within_of_mem_barAlternative
    (h : miss ∈ ((do layout; Reader.text "|"; layout; alternative : Reader String) cs).2) :
    ∃ s, Within [.mark .bar, .alternative s] cs miss.left := by
  simp only [layout_bind, Reader.mem_misses_bind] at h
  rcases h with h | ⟨_, mid, hbar, h⟩
  · exact ⟨"x", Writable.within_of_mem_text (by simp [Writable]) h⟩
  · obtain ⟨s, hwithin⟩ := exists_within_of_mem_alternative h
    exact ⟨s, ((skip_mark .bar).mp hbar).passed.append_within hwithin⟩

/-- **What is missed in names in braces** is missed within such a list. -/
theorem exists_within_of_mem_nameList (h : miss ∈ (nameList (skipLayout false cs)).2) :
    ∃ names, Within ([.mark .opening] ++ listed .comma .name names ++ [.mark .closing]) cs miss.left := by
  have hname : ∀ {cs s rest}, (name (skipLayout false cs)).1 = some (s, rest) ↔
      True ∧ Spelled [.name s] cs rest := by
    intro cs s rest
    rw [true_and, skip_name]
  have hcomma : ∀ {cs s rest}, (((do layout; Reader.text ","; layout) >>= fun _ => name :
      Reader String) cs).1 = some (s, rest) ↔ True ∧ Spelled [.mark .comma, .name s] cs rest := by
    intro cs s rest
    rw [true_and, commaName_eq_some_iff]
  simp only [nameList, layout_bind, Reader.mem_misses_bind, Reader.notMem_misses_pure, and_false,
    exists_false, or_false] at h
  rcases h with h | ⟨_, mid, hopen, h | ⟨names, mid', hnames, h⟩⟩
  · exact ⟨[], Writable.within_of_mem_text (by simp [Writable, listed]) h⟩
  · have hopen := ((skip_mark .opening).mp hopen).passed
    obtain ⟨names, -, hwithin⟩ := exists_within_of_mem_separatedBy hname hcomma
      (fun h => (exists_within_of_mem_name h).imp fun _ h => ⟨trivial, h⟩)
      (fun h => (exists_within_of_mem_commaName h).imp fun _ h => ⟨trivial, h⟩) h
    rw [← listed_eq_joined] at hwithin
    exact ⟨names, (hopen.append_within hwithin).append (by simp [Writable])⟩
  · have hopen := ((skip_mark .opening).mp hopen).passed
    obtain ⟨-, hnames⟩ := passed_of_separatedBy hname hcomma (fun _ => List.cons_ne_nil _ _) hnames
    rw [← listed_eq_joined] at hnames
    have hclose : Writable [.mark .closing] := by simp [Writable]
    exact ⟨names, (hopen.append hnames).append_within (hclose.within_of_mem_text h)⟩

/-- What is missed in a declaration is missed in its marks or in what is declared. -/
theorem within_of_mem_declaration {reader : Reader α} (heading : Mark)
    (h : miss ∈ (declaration heading.text reader (skipLayout false cs)).2) :
    (∀ ls, Writable ls → Within ([.mark heading, .mark .equals] ++ ls) cs miss.left) ∨
      ∃ mid, Passed [.mark heading, .mark .equals] cs mid ∧ miss ∈ (reader (skipLayout false mid)).2 := by
  simp only [declaration, layout_bind, Reader.mem_misses_bind] at h
  rcases h with h | ⟨_, mid, hheading, h | ⟨_, mid', hequals, h⟩⟩
  · left
    intro ls hls
    have hmarks : Writable ([.mark heading, .mark .equals] ++ ls) := by simpa [Writable] using hls
    exact hmarks.within_of_mem_text h
  · left
    intro ls hls
    have hequals : Writable (.mark .equals :: ls) := by simpa [Writable] using hls
    exact ((skip_mark heading).mp hheading).passed.append_within (hequals.within_of_mem_text h)
  · have hheading := ((skip_mark heading).mp hheading).passed
    have hequals := ((skip_mark .equals).mp hequals).passed
    exact Or.inr ⟨mid', hheading.append hequals, h⟩

theorem exists_within_of_mem_nameDeclaration (heading : Mark)
    (h : miss ∈ (declaration heading.text nameList (skipLayout false cs)).2) :
    ∃ names, Within (declarationLexemes heading names) cs miss.left := by
  rcases within_of_mem_declaration heading h with hmarks | ⟨mid, hmarks, h⟩
  · exact ⟨[], hmarks [.mark .opening, .mark .closing] (by simp [Writable])⟩
  · obtain ⟨names, hwithin⟩ := exists_within_of_mem_nameList h
    exact ⟨names, hmarks.append_within hwithin⟩

theorem exists_within_of_mem_startDeclaration
    (h : miss ∈ (declaration "start" name (skipLayout false cs)).2) :
    ∃ start, Within [.mark .start, .mark .equals, .name start] cs miss.left := by
  rcases within_of_mem_declaration .start h with hmarks | ⟨mid, hmarks, h⟩
  · exact ⟨"x", hmarks [.name "x"] (by simp [Writable])⟩
  · obtain ⟨start, hwithin⟩ := exists_within_of_mem_name h
    exact ⟨start, hmarks.append_within hwithin⟩

/-- **What is missed in a rule** is missed within a rule with alternatives. -/
theorem exists_within_of_mem_production (h : miss ∈ (production (skipLayout false cs)).2) :
    ∃ rule : String × List String, rule.2 ≠ [] ∧ Within (ruleLexemes rule) cs miss.left := by
  have hbar : ∀ {cs s rest}, ((do layout; Reader.text "|"; layout; alternative : Reader String) cs).1 =
      some (s, rest) ↔ True ∧ Spelled [.mark .bar, .alternative s] cs rest := by
    intro cs s rest
    rw [true_and, barAlternative_eq_some_iff]
  have hend : Writable [.mark .semicolon] := by simp [Writable]
  have hright : Writable [.mark .arrow, .alternative "x", .mark .semicolon] := by simp [Writable]
  simp only [production, layout_bind, Reader.mem_misses_bind, Reader.notMem_misses_pure, and_false,
    exists_false, or_false] at h
  -- Whatever is not there yet is made up: an arrow, an alternative, and the end.
  rcases h with h | ⟨left, mid₁, hleft, h | ⟨_, mid₂, harrow, h | ⟨first, mid₃, hfirst,
    h | ⟨more, mid₄, hmore, h⟩⟩⟩⟩
  · obtain ⟨left, hwithin⟩ := exists_within_of_mem_leftSide h
    exact ⟨(left, ["x"]), List.cons_ne_nil _ _, hwithin.append hright⟩
  · have hpassed := (skip_left.mp hleft).passed
    exact ⟨(left, ["x"]), List.cons_ne_nil _ _, hpassed.append_within (hright.within_of_mem_text h)⟩
  · have hpassed := (skip_left.mp hleft).passed.append ((skip_mark .arrow).mp harrow).passed
    obtain ⟨first, hwithin⟩ := exists_within_of_mem_alternative h
    exact ⟨(left, [first]), List.cons_ne_nil _ _, hpassed.append_within (hwithin.append hend)⟩
  all_goals
    have hpassed := ((skip_left.mp hleft).passed.append ((skip_mark .arrow).mp harrow).passed).append
      (skip_alternative.mp hfirst).passed
  · obtain ⟨more, -, hwithin⟩ := exists_within_of_mem_many hbar
      (fun h => (exists_within_of_mem_barAlternative h).imp fun _ h => ⟨trivial, h⟩) h
    exact ⟨(left, first :: more), List.cons_ne_nil _ _, hpassed.append_within (hwithin.append hend)⟩
  · obtain ⟨-, hmore, -⟩ := (many_eq_some_iff hbar fun _ => List.cons_ne_nil _ _).mp hmore
    exact ⟨(left, first :: more), List.cons_ne_nil _ _,
      hpassed.append_within (hmore.passed.append_within (hend.within_of_mem_text h))⟩

theorem exists_within_of_mem_layoutProduction (h : miss ∈ ((layout >>= fun _ => production) cs).2) :
    ∃ rule : String × List String, rule.2 ≠ [] ∧ Within (ruleLexemes rule) cs miss.left := by
  rw [layout_bind] at h
  exact exists_within_of_mem_production h

/-- Up to a number of characters from its end, a text holds the first lexemes of some description. -/
def Begins (cs : List Char) (left : Nat) : Prop :=
  ∃ d : Description, d.level = none ∧ d.direction = none ∧ (∀ rule ∈ d.productions, rule.2 ≠ []) ∧
    Within (lexemes d) cs left

/-- **All that is missed is missed within a description.** -/
theorem begins_of_mem_description (h : miss ∈ (description cs).2) : Begins cs miss.left := by
  simp only [description, layout_bind, Reader.mem_misses_bind, Reader.notMem_misses_pure, and_false,
    exists_false, or_false] at h
  -- Declarations that are not there yet are made up.
  have hstart : Writable [.mark .start, .mark .equals, .name "x"] := by simp [Writable]
  have hterminals : Writable (declarationLexemes .terminals [] ++
      [.mark .start, .mark .equals, .name "x"]) := by simp [Writable, declarationLexemes, listed]
  rcases h with h | ⟨nonterminals, mid₁, hn, h | ⟨terminals, mid₂, ht, h | ⟨start, mid₃, hs, h⟩⟩⟩
  · obtain ⟨names, hwithin⟩ := exists_within_of_mem_nameDeclaration .nonterminals h
    refine ⟨⟨names, [], [], "x", none, none⟩, rfl, rfl, by simp, ?_⟩
    rw [lexemes_eq_append]
    exact hwithin.append hterminals
  all_goals
    have hpassed := ((nameDeclaration_eq_some_iff .nonterminals).mp hn).passed
  · obtain ⟨names, hwithin⟩ := exists_within_of_mem_nameDeclaration .terminals h
    refine ⟨⟨nonterminals, names, [], "x", none, none⟩, rfl, rfl, by simp, ?_⟩
    rw [lexemes_eq_append]
    exact hpassed.append_within (hwithin.append hstart)
  all_goals
    have hpassed := hpassed.append ((nameDeclaration_eq_some_iff .terminals).mp ht).passed
  · obtain ⟨start, hwithin⟩ := exists_within_of_mem_startDeclaration h
    have hrules : Writable ([].flatMap ruleLexemes) := by simp [Writable]
    exact ⟨⟨nonterminals, terminals, [], start, none, none⟩, rfl, rfl, by simp,
      (hpassed.append_within hwithin).append hrules⟩
  · have hpassed := hpassed.append (startDeclaration_eq_some_iff.mp hs).passed
    obtain ⟨rules, hrules, hwithin⟩ := exists_within_of_mem_separatedBy production_eq_some_iff
      layoutProduction_eq_some_iff exists_within_of_mem_production exists_within_of_mem_layoutProduction h
    rw [joined_self] at hwithin
    exact ⟨⟨nonterminals, terminals, rules, start, none, none⟩, rfl, rfl, hrules,
      hpassed.append_within hwithin⟩

/-- Where a description was read, the text holds its lexemes, whatever is left. -/
theorem begins_of_description {d : Description} (h : (description cs).1 = some (d, rest)) :
    Begins cs rest.length := by
  simp only [description, layout_bind, Reader.fst_bind, Reader.fst_pure, Option.bind_eq_some_iff,
    Prod.exists] at h
  obtain ⟨nonterminals, mid₁, hn, terminals, mid₂, ht, start, mid₃, hs, rules, mid₄, hrules, heq⟩ := h
  obtain ⟨rfl, rfl⟩ := Prod.mk.inj (Option.some.inj heq)
  obtain ⟨hrules, hpassed⟩ := passed_of_separatedBy production_eq_some_iff layoutProduction_eq_some_iff
    (fun _ => List.cons_ne_nil _ _) hrules
  rw [joined_self] at hpassed
  refine ⟨⟨nonterminals, terminals, rules, start, none, none⟩, rfl, rfl, hrules, ?_⟩
  have hnames := ((nameDeclaration_eq_some_iff .nonterminals).mp hn).passed.append
    ((nameDeclaration_eq_some_iff .terminals).mp ht).passed
  have hall := (hnames.append (startDeclaration_eq_some_iff.mp hs).passed).append hpassed
  have hlayout := hall.append (passed_of_layout (layout_skipLayout mid₄).1)
  rw [List.append_nil] at hlayout
  exact hlayout.within

/-! ## The place of an error -/

/-- A text that begins a description is the front of one that holds it. -/
theorem Begins.exists_parse (h : Begins cs n) :
    n ≤ cs.length ∧ ∃ t d, parse t = .ok d ∧ cs.take (cs.length - n) <+: t.toList := by
  obtain ⟨d, hlevel, hdirection, hrules, begun, others, rest, hlexemes, hothers, hpassed, rfl⟩ := h
  obtain ⟨front, rfl, hline⟩ := hpassed.before_newline
  refine ⟨by simp, String.ofList (front ++ '\n' :: onLines others), d, ?_, ?_⟩
  · have hall := (hline (onLines others)).append (spelled_onLines hothers).passed
    rw [← hlexemes] at hall
    rw [parse_eq_ok_iff, description_eq_some_iff, String.toList_ofList]
    exact ⟨hlevel, hdirection, hrules, hall⟩
  · rw [String.toList_ofList, List.length_append, Nat.add_sub_cancel, List.take_left]
    exact List.prefix_append _ _

/-- The text in front of the furthest miss begins a description. -/
theorem begins_furthest {misses : List Miss} (h : ∀ miss ∈ misses, Begins cs miss.left) :
    Begins cs (Mistake.furthest cs.length misses) := by
  rcases (Mistake.furthest_cases cs.length misses).2 with heq | ⟨miss, hmiss, heq⟩
  · -- Nothing at all is the beginning of any description.
    rw [heq]
    refine ⟨⟨[], [], [], "x", none, none⟩, rfl, rfl, by simp, Writable.within ?_ .none⟩
    simp [Writable, lexemes, declarationLexemes, listed]
  · rw [heq]
    exact h miss hmiss

theorem begins_of_parse_eq_error {s : String} {m : Mistake} (h : parse s = .error m) :
    ∃ misses, m = .ofMisses s.toList misses ∧ ∀ miss ∈ misses, Begins s.toList miss.left := by
  rw [parse] at h
  unfold Reader.bind at h
  cases hread : description s.toList with
  | mk result misses =>
    have hmisses : ∀ miss ∈ misses, Begins s.toList miss.left := by
      intro miss hmiss
      exact begins_of_mem_description (by rw [hread]; exact hmiss)
    cases result with
    | none =>
      rw [hread] at h
      cases h
      exact ⟨misses, rfl, hmisses⟩
    | some read =>
      obtain ⟨d, rest⟩ := read
      have hend : Begins s.toList rest.length := begins_of_description (by rw [hread])
      rw [hread] at h
      cases rest with
      | nil => simp [ending, Reader.pure] at h
      | cons c rest =>
        simp only [ending, reduceCtorEq, if_false] at h
        cases h
        refine ⟨_, rfl, ?_⟩
        intro miss hmiss
        rcases List.mem_append.mp hmiss with hmiss | hmiss
        · exact hmisses miss hmiss
        · obtain rfl := List.mem_singleton.mp hmiss
          exact hend

/-- **An error does not point past the first mistake.**  The line and the column of an error lie within the text,
and the text in front of them is the beginning of some text that is accepted. -/
theorem place_never_beyond_mistake {s : String} {m : Mistake} (h : parse s = .error m) :
    m.offset s.toList ≤ s.toList.length ∧
      ∃ t d, parse t = .ok d ∧ s.toList.take (m.offset s.toList) <+: t.toList := by
  obtain ⟨misses, rfl, hmisses⟩ := begins_of_parse_eq_error h
  obtain ⟨hle, hprefix⟩ := (begins_furthest hmisses).exists_parse
  have hoffset : (Mistake.ofMisses s.toList misses).offset s.toList =
      s.toList.length - Mistake.furthest s.toList.length misses := by
    have hafter := Mistake.offset_after (s.toList.take (s.toList.length - Mistake.furthest s.toList.length misses))
      (s.toList.drop (s.toList.length - Mistake.furthest s.toList.length misses))
      ((misses.filter fun miss => miss.left = Mistake.furthest s.toList.length misses).map Miss.piece)
    rw [List.take_append_drop] at hafter
    rw [Mistake.ofMisses, hafter, List.length_take]
    exact min_eq_left (Nat.sub_le _ _)
  rw [hoffset]
  exact ⟨Nat.sub_le _ _, hprefix⟩

/-- A start symbol without an equals sign. -/
def noEquals : String :=
  "N = \x7b S \x7d\nT = \x7b a \x7d # terminals\nstart S"

theorem place_never_beyond_mistake_noEquals :
    ∃ m, parse noEquals = .error m ∧ m.line = 3 ∧ m.column = 7 ∧
      ∃ t d, parse t = .ok d ∧ "N = \x7b S \x7d\nT = \x7b a \x7d # terminals\nstart ".toList <+: t.toList := by
  have herror : parse noEquals = .error (.ofMisses noEquals.toList (description noEquals.toList).2) := rfl
  obtain ⟨-, hprefix⟩ := place_never_beyond_mistake herror
  exact ⟨_, herror, rfl, rfl, hprefix⟩

end PhraseStructure.RuleText
