import PhraseStructure.Format.Json.Grammar

/-!
# What is written as JSON reads back

A reader takes a value off the front of a text and leaves the rest, so what has to be shown about each kind of
value is that the reader undoes the writing whatever follows: `unquote_escape` for strings, `list_stringsText`
for arrays, `object_block` for objects, `byte_toString` for numbers.  Only a number depends on what follows,
since a digit more would belong to it; `Ends` says that nothing of the kind comes next, and in a block that is
always so (`ends_entriesText`).

A block is written with a comma before every entry but the first, and read in the same way.  `entriesText` is
the text of a block from some entry on, and arrays and objects are read along it by induction on the entries.
The members of an object change a state as they are read; `ReadsMembers` follows the states, so that the rules
of a grammar and the fields of a description are instances of one statement.

## Main definitions

* `entriesText`: the entries of a block that are left to read.
* `Ends`: nothing that follows could belong to a number.
* `ReadsMembers`: members are read one after another, from one state to the next.

## Main results

* `unquote_escape`: strings read back, over all characters.
* `number_toDigits`: numbers read back, as long as they fit into 64 bits.
* `members_entriesText`: objects read back member by member.
* `parse_print`: descriptions read back.
-/

namespace PhraseStructure.Json

/-! ## Strings -/

theorem hexValue?_hexDigit {n : Nat} (h : n < 16) : hexValue? (hexDigit n) = some n := by
  have hall : ∀ n < 16, hexValue? (hexDigit n) = some n := by decide
  exact hall n h

section Unquote

variable {mode mode' : Mode} {c : Char} {cs chars chars' rest : List Char} {decoded : Option Char}

theorem unquoteFrom_cons (hopen : ¬ (mode = .plain ∧ c = '"'))
    (h : unquoteChar true mode c (c :: cs) = .ok (decoded, mode'))
    (hcs : unquoteFrom true mode' cs = .ok (chars, rest)) (hchars : decoded.toList ++ chars = chars') :
    unquoteFrom true mode (c :: cs) = .ok (chars', rest) := by
  rw [unquoteFrom, if_neg hopen, h]
  dsimp only
  rw [hcs, ← hchars]

theorem unquoteFrom_escaped {e : Char} (hu : e ≠ 'u') (he : escaped? e = some c)
    (hcs : unquoteFrom true .plain cs = .ok (chars, rest)) :
    unquoteFrom true .plain ('\\' :: e :: cs) = .ok (c :: chars, rest) := by
  have hread : unquoteChar true .escape e (e :: cs) = .ok (some c, .plain) := by
    simp [unquoteChar, hu, he]
  refine unquoteFrom_cons (by simp) rfl ?_ rfl
  exact unquoteFrom_cons (by simp) hread hcs rfl

/-- A code of four digits, the first two of them zero, stands for the character. -/
theorem unquoteFrom_code (h : c.toNat < 0x20)
    (hcs : unquoteFrom true .plain cs = .ok (chars, rest)) :
    unquoteFrom true .plain
      ('\\' :: 'u' :: '0' :: '0' :: hexDigit (c.toNat / 16) :: hexDigit (c.toNat % 16) :: cs) =
      .ok (c :: chars, rest) := by
  have hhigh := hexValue?_hexDigit (n := c.toNat / 16) (by omega)
  have hlow := hexValue?_hexDigit (n := c.toNat % 16) (by omega)
  have hnumber : hexNumber [0, 0, c.toNat / 16, c.toNat % 16] = c.toNat := by
    simp only [hexNumber, List.foldl]
    omega
  have hdecode : decode true none c.toNat = .ok (some c, .plain) := by
    have hlow : isLowSurrogate c.toNat = false := by simp [isLowSurrogate]; omega
    have hhigh : isHighSurrogate c.toNat = false := by simp [isHighSurrogate]; omega
    simp [decode, hlow, hhigh, Char.ofNat_toNat]
  have hthird : ∀ rest, unquoteChar true (.code none [0, 0]) (hexDigit (c.toNat / 16)) rest =
      .ok (none, .code none [0, 0, c.toNat / 16]) := by
    intro rest
    simp [unquoteChar, hhigh]
  have hfourth : ∀ rest, unquoteChar true (.code none [0, 0, c.toNat / 16]) (hexDigit (c.toNat % 16)) rest =
      .ok (some c, .plain) := by
    intro rest
    simp [unquoteChar, hlow, hnumber, hdecode]
  -- The backslash, the letter and two zeros are read without a result.
  refine unquoteFrom_cons (by simp) rfl ?_ rfl
  refine unquoteFrom_cons (by simp) rfl ?_ rfl
  refine unquoteFrom_cons (by simp) rfl ?_ rfl
  refine unquoteFrom_cons (by simp) rfl ?_ rfl
  refine unquoteFrom_cons (by simp) (hthird _) ?_ rfl
  exact unquoteFrom_cons (by simp) (hfourth _) hcs rfl

/-- A character is written in one of three ways: as a letter behind a backslash, as a code, or as itself. -/
theorem escapeChar_cases (c : Char) :
    (∃ e, escapeChar c = ['\\', e] ∧ e ≠ 'u' ∧ escaped? e = some c) ∨
    (escapeChar c = ['\\', 'u', '0', '0', hexDigit (c.toNat / 16), hexDigit (c.toNat % 16)] ∧
      c.toNat < 0x20) ∨
    (escapeChar c = [c] ∧ c ≠ '"' ∧ c ≠ '\\' ∧ ¬ c.toNat < 0x20) := by
  by_cases hletter : c ∈ ['"', '\\', '\n', '\r', '\t', '\x08', '\x0c']
  · left
    simp only [List.mem_cons, List.not_mem_nil, or_false] at hletter
    rcases hletter with rfl | rfl | rfl | rfl | rfl | rfl | rfl <;> exact ⟨_, rfl, by decide, rfl⟩
  · -- None of the seven tests holds, so the eighth decides.
    right
    simp only [List.mem_cons, List.not_mem_nil, or_false, not_or] at hletter
    by_cases hsmall : c.toNat < 0x20
    · exact Or.inl ⟨by simp [escapeChar, hletter, hsmall], hsmall⟩
    · exact Or.inr ⟨by simp [escapeChar, hletter, hsmall], hletter.1, hletter.2.1, hsmall⟩

theorem unquoteFrom_escapeChar (c : Char) (hcs : unquoteFrom true .plain cs = .ok (chars, rest)) :
    unquoteFrom true .plain (escapeChar c ++ cs) = .ok (c :: chars, rest) := by
  rcases escapeChar_cases c with ⟨e, htext, hu, he⟩ | ⟨htext, hsmall⟩ | ⟨htext, hquote, hslash, hlarge⟩
  · rw [htext]
    exact unquoteFrom_escaped hu he hcs
  · rw [htext]
    exact unquoteFrom_code hsmall hcs
  · have hread : unquoteChar true .plain c (c :: cs) = .ok (some c, .plain) := by
      rw [unquoteChar, if_neg hslash, if_neg hlarge]
    rw [htext]
    exact unquoteFrom_cons (fun h => hquote h.2) hread hcs rfl

/-- **Strings read back**, whatever they hold and whatever follows them. -/
theorem unquote_escape (s : String) (rest : List Char) :
    unquote (escape s.toList ++ '"' :: rest) = .ok (s, rest) := by
  have hchars : ∀ chars, unquoteFrom true .plain (escape chars ++ '"' :: rest) = .ok (chars, rest) := by
    intro chars
    induction chars with
    | nil => simp [escape, unquoteFrom]
    | cons c chars ih =>
      rw [escape, List.flatMap_cons, List.append_assoc]
      exact unquoteFrom_escapeChar c ih
  rw [unquote, hchars]
  simp [Except.map]

end Unquote

theorem quote_append (s : String) (rest : List Char) :
    quote s ++ rest = '"' :: (escape s.toList ++ '"' :: rest) := by
  simp [quote]

/-! ## Readers -/

section Reader

variable {α β : Type} {a : α} {cs cs' blanks : List Char}

theorem bind_eq {x : Reader α} {f : α → Reader β} (h : x cs = .ok (a, cs')) :
    (x >>= f) cs = f a cs' := by
  change Except.bind (x cs) _ = _
  rw [h]
  rfl

/-- Blanks, and nothing else. -/
def Blank (cs : List Char) : Prop :=
  ∀ c ∈ cs, isSpace c = true

theorem peek_eq {c : Char} (hblank : Blank blanks) (hc : isSpace c = false) :
    peek (blanks ++ c :: cs) = .ok (some c, c :: cs) := by
  have hdrop : (blanks ++ c :: cs).dropWhile isSpace = c :: cs := by
    rw [List.dropWhile_append_of_pos hblank, List.dropWhile_cons_of_neg (by simp [hc])]
  simp only [peek, scan, hdrop, List.head?_cons]

theorem peek_cons {c : Char} (hc : isSpace c = false) : peek (c :: cs) = .ok (some c, c :: cs) :=
  peek_eq (List.forall_mem_nil _) hc

theorem string_quote (s : String) (rest : List Char) : string (quote s ++ rest) = .ok (s, rest) := by
  rw [string, stringAs, quote_append, bind_eq (peek_cons rfl)]
  exact (bind_eq rfl).trans (unquote_escape s rest)

theorem close_eq {c : Char} (hc : isSpace c = false) : close c (c :: cs) = .ok ((), cs) := by
  rw [close, bind_eq (peek_cons hc)]
  dsimp only
  rw [if_pos rfl]
  rfl

theorem colon_eq : colon (':' :: cs) = .ok ((), cs) := by
  rw [colon, bind_eq (peek_cons rfl)]
  rfl

/-! ## Entries of a block -/

/-- What stands before an entry: its line begins, behind a comma unless it is the first. -/
def lead (margin : List Char) (first : Bool) : List Char :=
  if first then margin else ',' :: margin

/-- Entries, each on a line of its own, with commas between them. -/
def entriesText (margin : List Char) (first : Bool) : List (List Char) → List Char
  | [] => []
  | entry :: entries => lead margin first ++ (entry ++ entriesText margin false entries)

theorem flatMap_eq_entriesText (margin : List Char) (entries : List (List Char)) :
    (entries.flatMap fun entry => ',' :: margin ++ entry) = entriesText margin false entries := by
  induction entries with
  | nil => rfl
  | cons entry entries ih =>
    rw [List.flatMap_cons, ih, List.append_assoc]
    rfl

theorem length_le_entriesText {margin : List Char} (hmargin : margin ≠ []) (first : Bool)
    (entries : List (List Char)) : entries.length ≤ (entriesText margin first entries).length := by
  induction entries generalizing first with
  | nil => exact Nat.zero_le _
  | cons entry entries ih =>
    have hle := ih false
    have hpos := List.length_pos_iff.mpr hmargin
    -- Every entry has a line of its own, so it takes up at least one character.
    have hlead : 0 < (lead margin first).length := by
      cases first with
      | true => exact hpos
      | false => exact Nat.zero_lt_succ _
    simp only [entriesText, List.length_append, List.length_cons]
    omega

theorem blank_newLine (depth : Nat) : Blank (newLine depth) := by
  intro c hc
  rcases List.mem_cons.mp hc with rfl | hc
  · rfl
  · rw [List.eq_of_mem_replicate hc]
    rfl

theorem newLine_ne_nil (depth : Nat) : newLine depth ≠ [] :=
  List.cons_ne_nil _ _

theorem exists_block_eq (opening closing : Char) (depth : Nat) (entries : List (List Char)) :
    ∃ blanks, Blank blanks ∧ block opening closing depth entries =
      opening :: (entriesText (newLine (depth + 1)) true entries ++ (blanks ++ [closing])) := by
  cases entries with
  | nil => exact ⟨[], List.forall_mem_nil _, rfl⟩
  | cons entry entries =>
    refine ⟨newLine depth, blank_newLine depth, ?_⟩
    rw [block, flatMap_eq_entriesText]
    simp [entriesText, lead]

section Entries

variable {margin rest : List Char}

theorem anotherElement_lead (hmargin : Blank margin) (first : Bool) :
    anotherElement first (lead margin first ++ '"' :: cs) = .ok (true, '"' :: cs) := by
  cases first with
  | true =>
    rw [anotherElement, lead, if_pos rfl, bind_eq (peek_eq hmargin rfl)]
    rfl
  | false =>
    rw [anotherElement, lead, if_neg (by simp), List.cons_append, bind_eq (peek_cons rfl)]
    change (take >>= fun _ => peek >>= _) _ = _
    rw [bind_eq rfl, List.tail_cons, bind_eq (peek_eq hmargin rfl)]
    rfl

theorem anotherElement_end (hblank : Blank blanks) (first : Bool) :
    anotherElement first (blanks ++ ']' :: rest) = .ok (false, ']' :: rest) := by
  rw [anotherElement, bind_eq (peek_eq hblank rfl)]
  rfl

/-- **Strings in a list read back**, one after another. -/
theorem elements_entriesText (hmargin : Blank margin) (hblank : Blank blanks) (strings : List String)
    (first : Bool) {count : Nat} (hcount : strings.length < count) :
    elements string count first (entriesText margin first (strings.map quote) ++ (blanks ++ ']' :: rest)) =
      .ok (strings, ']' :: rest) := by
  induction strings generalizing first count with
  | nil =>
    obtain ⟨count, rfl⟩ := Nat.exists_eq_succ_of_ne_zero (Nat.ne_of_gt hcount)
    rw [elements, List.map_nil, entriesText, List.nil_append, bind_eq (anotherElement_end hblank first)]
    rfl
  | cons s strings ih =>
    obtain ⟨count, rfl⟩ := Nat.exists_eq_succ_of_ne_zero (Nat.ne_zero_of_lt hcount)
    rw [elements, List.map_cons, entriesText, List.append_assoc, List.append_assoc, quote_append,
      bind_eq (anotherElement_lead hmargin first)]
    -- The quote was only looked at, and the string is read with it.
    rw [if_pos rfl, ← quote_append, bind_eq (string_quote s _),
      bind_eq (ih false (by simpa using hcount))]
    rfl

theorem list_stringsText (depth : Nat) (strings : List String) (rest : List Char) :
    list string (stringsText depth strings ++ rest) = .ok (strings, rest) := by
  obtain ⟨blanks, hblank, htext⟩ := exists_block_eq '[' ']' depth (strings.map quote)
  have hcount := length_le_entriesText (newLine_ne_nil (depth + 1)) true (strings.map quote)
  rw [List.length_map] at hcount
  rw [list, stringsText, htext, List.cons_append, List.append_assoc, List.append_assoc,
    List.singleton_append, bind_eq (peek_cons rfl)]
  change (take >>= fun _ => get >>= _) _ = _
  rw [bind_eq rfl, bind_eq rfl, List.tail_cons, bind_eq (elements_entriesText (blank_newLine _) hblank
    strings true (by rw [List.length_append]; omega)), bind_eq (close_eq rfl)]
  rfl

/-! ## Members of an object -/

theorem anotherKey_lead (hmargin : Blank margin) (first : Bool) (key : String) :
    anotherKey first (lead margin first ++ (quote key ++ rest)) = .ok (some key, rest) := by
  rw [quote_append]
  cases first with
  | true =>
    rw [anotherKey, lead, if_pos rfl, bind_eq (peek_eq hmargin rfl)]
    change (peek >>= _) _ = _
    rw [bind_eq (peek_cons rfl)]
    exact (bind_eq rfl).trans (bind_eq (unquote_escape key rest))
  | false =>
    rw [anotherKey, lead, if_neg (by simp), List.cons_append, bind_eq (peek_cons rfl)]
    change (take >>= fun _ => peek >>= _) _ = _
    rw [bind_eq rfl, List.tail_cons, bind_eq (peek_eq hmargin rfl)]
    exact (bind_eq rfl).trans (bind_eq (unquote_escape key rest))

theorem anotherKey_end (hblank : Blank blanks) (first : Bool) :
    anotherKey first (blanks ++ '\x7d' :: rest) = .ok (none, '\x7d' :: rest) := by
  rw [anotherKey, bind_eq (peek_eq hblank rfl)]
  rfl

/-- Nothing comes next that could belong to a number. -/
def Ends (rest : List Char) : Prop :=
  ∀ c ∈ rest.head?, isDigit c = false ∧ c ≠ '.' ∧ isExponentMark c = false

/-- Members with the given values are read one after another, from one state to the next. -/
inductive ReadsMembers {σ : Type} (member : σ → String → Reader σ) :
    σ → List (String × List Char) → σ → Prop where
  | nil {s : σ} : ReadsMembers member s [] s
  | cons {s s' s'' : σ} {key : String} {value : List Char} {entries : List (String × List Char)} :
      (∀ rest, Ends rest → member s key (':' :: ' ' :: (value ++ rest)) = .ok (s', rest)) →
      ReadsMembers member s' entries s'' → ReadsMembers member s ((key, value) :: entries) s''

theorem ends_blank (hblank : Blank blanks) : Ends (blanks ++ '\x7d' :: rest) := by
  intro c hc
  cases blanks with
  | nil =>
    cases hc
    decide
  | cons b blanks =>
    cases hc
    have hspace := hblank _ List.mem_cons_self
    simp only [isSpace, Bool.or_eq_true, decide_eq_true_eq] at hspace
    rcases hspace with ((rfl | rfl) | rfl) | rfl <;> decide

theorem ends_entriesText (hblank : Blank blanks) (entries : List (List Char)) :
    Ends (entriesText margin false entries ++ (blanks ++ '\x7d' :: rest)) := by
  cases entries with
  | nil => exact ends_blank hblank
  | cons entry entries =>
    intro c hc
    cases hc
    decide

/-- **Members of an object read back**, one after another. -/
theorem members_entriesText {σ : Type} {member : σ → String → Reader σ}
    {s s' : σ} {entries : List (String × List Char)} (h : ReadsMembers member s entries s')
    (hmargin : Blank margin) (hblank : Blank blanks) (first : Bool) {count : Nat}
    (hcount : entries.length < count) :
    members member count first s (entriesText margin first (entries.map fun e =>
      memberText e.1 e.2) ++ (blanks ++ '\x7d' :: rest)) = .ok (s', '\x7d' :: rest) := by
  induction h generalizing first count with
  | nil =>
    obtain ⟨count, rfl⟩ := Nat.exists_eq_succ_of_ne_zero (Nat.ne_of_gt hcount)
    rw [members, List.map_nil, entriesText, List.nil_append, bind_eq (anotherKey_end hblank first)]
    rfl
  | @cons s s' s'' key value entries hread _ ih =>
    obtain ⟨count, rfl⟩ := Nat.exists_eq_succ_of_ne_zero (Nat.ne_zero_of_lt hcount)
    rw [members, List.map_cons, entriesText, memberText, List.append_assoc, List.append_assoc,
      List.append_assoc, bind_eq (anotherKey_lead hmargin first key)]
    exact (bind_eq (hread _ (ends_entriesText hblank _))).trans (ih false (Nat.lt_of_succ_lt_succ hcount))

theorem members_block {σ : Type} {member : σ → String → Reader σ} {s s' : σ}
    {entries : List (String × List Char)} (h : ReadsMembers member s entries s') (depth : Nat)
    (rest : List Char) :
    ∃ text, block '\x7b' '\x7d' depth (entries.map fun e => memberText e.1 e.2) ++ rest =
        '\x7b' :: text ∧
      members member (text.length + 1) true s text = .ok (s', '\x7d' :: rest) := by
  obtain ⟨blanks, hblank, htext⟩ := exists_block_eq '\x7b' '\x7d' depth
    (entries.map fun e => memberText e.1 e.2)
  have hcount := length_le_entriesText (newLine_ne_nil (depth + 1)) true
    (entries.map fun e => memberText e.1 e.2)
  rw [List.length_map] at hcount
  refine ⟨_, by rw [htext, List.cons_append, List.append_assoc, List.append_assoc,
    List.singleton_append], ?_⟩
  exact members_entriesText h (blank_newLine _) hblank true (by rw [List.length_append]; omega)

theorem object_block {σ : Type} {member : σ → String → Reader σ} {s s' : σ}
    {entries : List (String × List Char)} (h : ReadsMembers member s entries s') (expected : String)
    (depth : Nat) (rest : List Char) :
    object expected s member (block '\x7b' '\x7d' depth (entries.map fun e => memberText e.1 e.2) ++ rest) =
      .ok (s', rest) := by
  obtain ⟨text, htext, hmembers⟩ := members_block h depth rest
  rw [object, htext, bind_eq (peek_cons rfl)]
  change (take >>= fun _ => get >>= _) _ = _
  rw [bind_eq rfl, bind_eq rfl, List.tail_cons, bind_eq hmembers, bind_eq (close_eq rfl)]
  rfl

end Entries

end Reader

/-! ## Numbers -/

section Numbers

variable {ds rest : List Char} {n significand : Nat}

theorem le_ofDigitChars (ds : List Char) (significand : Nat) :
    significand ≤ Nat.ofDigitChars 10 ds significand := by
  induction ds generalizing significand with
  | nil => simp
  | cons c ds ih =>
    rw [Nat.ofDigitChars_cons]
    exact Nat.le_trans (by omega) (ih _)

/-- As long as everything fits into 64 bits, no digit is left over. -/
theorem collect_eq (h : Nat.ofDigitChars 10 ds significand < Nat.pow 2 64) :
    collect significand ds = (Nat.ofDigitChars 10 ds significand, 0) := by
  induction ds generalizing significand with
  | nil => simp [collect]
  | cons c ds ih =>
    rw [Nat.ofDigitChars_cons] at h ⊢
    have hle := le_ofDigitChars ds (10 * significand + (c.toNat - '0'.toNat))
    rw [collect, if_neg (by omega), ih h]

theorem head?_toDigits_ne_zero (h : 0 < n) : (Nat.toDigits 10 n).head? ≠ some '0' := by
  induction n using Nat.strongRecOn with
  | ind n ih =>
    by_cases hlt : n < 10
    · rw [Nat.toDigits_of_lt_base hlt]
      simp only [List.head?_cons, ne_eq, Option.some.injEq, Nat.digitChar_eq_zero]
      omega
    · obtain ⟨c, hc⟩ : ∃ c, (Nat.toDigits 10 (n / 10)).head? = some c :=
        ⟨_, List.head?_eq_some_head Nat.toDigits_ne_nil⟩
      rw [Nat.toDigits_of_base_le (by decide) (Nat.le_of_not_lt hlt), List.head?_append, hc,
        Option.some_or, ← hc]
      exact ih (n / 10) (by omega) (by omega)

theorem isDigit_of_mem_toDigits {c : Char} (h : c ∈ Nat.toDigits 10 n) : isDigit c = true := by
  have hdigit := Nat.isDigit_of_mem_toDigits (by decide) (by decide) h
  simpa [isDigit, Char.isDigit, Char.le_def] using hdigit

theorem digits_append (hne : ds ≠ []) (hds : ∀ c ∈ ds, isDigit c = true) (hrest : Ends rest) :
    digits (ds ++ rest) = .ok (ds, rest) := by
  have hdrop : rest.takeWhile isDigit = [] ∧ rest.dropWhile isDigit = rest := by
    cases rest with
    | nil => exact ⟨rfl, rfl⟩
    | cons c rest =>
      have hc := (hrest c rfl).1
      simp [hc]
  rw [digits, List.takeWhile_append_of_pos hds, List.dropWhile_append_of_pos hds, hdrop.1, hdrop.2,
    List.append_nil]
  cases ds with
  | nil => exact absurd rfl hne
  | cons c ds => rfl

/-- **Numbers read back**, if they fit into 64 bits and nothing follows that could belong to them. -/
theorem number_toDigits (h : n < Nat.pow 2 64) (hrest : Ends rest) :
    number true (Nat.toDigits 10 n ++ rest) = .ok (.natural n, rest) := by
  have hdigits : digits (Nat.toDigits 10 n ++ rest) = .ok (Nat.toDigits 10 n, rest) :=
    digits_append Nat.toDigits_ne_nil (fun _ => isDigit_of_mem_toDigits) hrest
  have hlead : ((Nat.toDigits 10 n).head? = some '0' && 1 < (Nat.toDigits 10 n).length) = false := by
    rcases Nat.eq_zero_or_pos n with rfl | hpos
    · rfl
    · simp [head?_toDigits_ne_zero hpos]
  have hcollect : collect 0 (Nat.toDigits 10 n) = (n, 0) := by
    rw [collect_eq (by rwa [Nat.ofDigitChars_ten_toDigits]), Nat.ofDigitChars_ten_toDigits]
  simp only [number, hdigits, bind, Except.bind, hlead, hcollect]
  rw [if_neg Bool.false_ne_true]
  -- Neither a point nor the mark of an exponent follows.
  split
  · exact absurd rfl (hrest '.' rfl).2.1
  · next c _ _ =>
    rw [if_neg (by simp [(hrest c rfl).2.2])]
    rfl
  · rfl

/-- A digit is no blank, no sign and not the beginning of `null`. -/
theorem of_isDigit {c : Char} (h : isDigit c = true) : isSpace c = false ∧ c ≠ '-' ∧ c ≠ 'n' := by
  refine ⟨?_, ?_, ?_⟩
  · rw [Bool.eq_false_iff]
    intro hspace
    simp only [isSpace, Bool.or_eq_true, decide_eq_true_eq] at hspace
    rcases hspace with ((rfl | rfl) | rfl) | rfl <;> exact absurd h (by decide)
  · rintro rfl
    exact absurd h (by decide)
  · rintro rfl
    exact absurd h (by decide)

theorem exists_toString_eq_cons (n : Nat) :
    ∃ c ds, (toString n).toList = c :: ds ∧ isDigit c = true := by
  have htext : (toString n).toList = Nat.toDigits 10 n := Nat.toList_repr
  obtain ⟨c, ds, hds⟩ := List.exists_cons_of_ne_nil (Nat.toDigits_ne_nil (n := n) (b := 10))
  exact ⟨c, ds, htext.trans hds, isDigit_of_mem_toDigits (hds ▸ List.mem_cons_self)⟩

theorem byte_toString (n : UInt8) (hrest : Ends rest) :
    byte ((toString n.toNat).toList ++ rest) = .ok (n, rest) := by
  have hlt : n.toNat < 256 := n.toNat_lt
  have htext : (toString n.toNat).toList = Nat.toDigits 10 n.toNat := Nat.toList_repr
  have hnumber : scan (number true) ((toString n.toNat).toList ++ rest) = .ok (.natural n.toNat, rest) :=
    htext ▸ number_toDigits (Nat.lt_trans hlt (by decide)) hrest
  obtain ⟨c, ds, hds, hdigit⟩ := exists_toString_eq_cons n.toNat
  obtain ⟨hspace, hminus, -⟩ := of_isDigit hdigit
  rw [hds, List.cons_append] at hnumber ⊢
  rw [byte, bind_eq (peek_cons hspace)]
  dsimp only
  rw [if_neg hminus, if_pos hdigit, bind_eq hnumber]
  dsimp only
  rw [if_pos hlt]
  change Except.ok (n.toNat.toUInt8, rest) = _
  rw [show n.toNat.toUInt8 = n from UInt8.ofNat_toNat]

end Numbers

/-! ## The rules -/

theorem readsMembers_rule (rules read : List (String × List String)) :
    ReadsMembers rule read (rules.map fun rule => (rule.1, stringsText 2 rule.2))
      (rules.reverse ++ read) := by
  induction rules generalizing read with
  | nil => exact .nil
  | cons r rules ih =>
    rw [List.reverse_cons, List.append_assoc, List.singleton_append]
    refine .cons ?_ (ih (r :: read))
    intro rest _
    have hlist : list string (' ' :: (stringsText 2 r.2 ++ rest)) = .ok (r.2, rest) :=
      list_stringsText 2 r.2 rest
    rw [rule, bind_eq colon_eq, bind_eq hlist]
    rfl

theorem productions_block (rules : List (String × List String)) (rest : List Char) :
    productions (block '\x7b' '\x7d' 1 (rules.map fun (left, alternatives) =>
      memberText left (stringsText 2 alternatives)) ++ rest) = .ok (rules, rest) := by
  have hentries : (rules.map fun (left, alternatives) => memberText left (stringsText 2 alternatives)) =
      (rules.map fun rule => (rule.1, stringsText 2 rule.2)).map fun e => memberText e.1 e.2 := by
    rw [List.map_map]
    rfl
  rw [productions, hentries, bind_eq (object_block (readsMembers_rule rules []) _ 1 rest),
    List.append_nil, List.reverse_reverse]
  rfl

/-! ## Values that may be null -/

section Optional

variable {α : Type} {value : Reader α} {rest : List Char}

theorem letters_append (word rest : List Char) : letters word (word ++ rest) = .ok ((), rest) := by
  induction word with
  | nil => rfl
  | cons c word ih =>
    rw [letters, List.cons_append, bind_eq rfl]
    dsimp only
    rw [if_pos rfl, bind_eq rfl]
    exact ih

theorem optional_null (value : Reader α) (rest : List Char) :
    optional value ("null".toList ++ rest) = .ok (none, rest) := by
  have htext : "null".toList ++ rest = 'n' :: (['u', 'l', 'l'] ++ rest) := rfl
  rw [optional, htext, bind_eq (peek_cons rfl)]
  exact (bind_eq (letters_append "null".toList rest)).trans rfl

theorem optional_some {c : Char} {cs : List Char} {a : α} (hspace : isSpace c = false) (hnull : c ≠ 'n')
    (hvalue : value (c :: cs) = .ok (a, rest)) : optional value (c :: cs) = .ok (some a, rest) := by
  rw [optional, bind_eq (peek_cons hspace)]
  generalize hnext : some c = next
  split
  · exact absurd (Option.some.inj hnext) hnull
  · rw [bind_eq hvalue]
    rfl

theorem direction_quote (d : Direction) (rest : List Char) :
    direction (quote (directionName d) ++ rest) = .ok (d, rest) := by
  rw [direction, quote_append, bind_eq (peek_cons rfl)]
  refine (bind_eq rfl).trans ((bind_eq (unquote_escape (directionName d) rest)).trans ?_)
  cases d <;> rfl

theorem optional_byte (level : Option UInt8) (hrest : Ends rest) :
    optional byte ((level.map fun n => (toString n.toNat).toList).getD "null".toList ++ rest) =
      .ok (level, rest) := by
  cases level with
  | none => exact optional_null byte rest
  | some n =>
    obtain ⟨c, ds, hds, hdigit⟩ := exists_toString_eq_cons n.toNat
    obtain ⟨hspace, -, hnull⟩ := of_isDigit hdigit
    have hbyte := byte_toString n hrest
    rw [Option.map_some, Option.getD_some]
    rw [hds, List.cons_append] at hbyte ⊢
    exact optional_some hspace hnull hbyte

theorem optional_direction (style : Option Direction) (rest : List Char) :
    optional direction ((style.map fun d => quote (directionName d)).getD "null".toList ++ rest) =
      .ok (style, rest) := by
  cases style with
  | none => exact optional_null direction rest
  | some d =>
    have hdirection := direction_quote d rest
    rw [Option.map_some, Option.getD_some]
    rw [quote_append] at hdirection ⊢
    exact optional_some rfl (by decide) hdirection

end Optional

/-! ## Descriptions -/

/-- How a part of a description is written. -/
def partText (d : Description) : Field → List Char
  | .nonterminals => stringsText 1 d.nonterminals
  | .terminals => stringsText 1 d.terminals
  | .productions => block '\x7b' '\x7d' 1 (d.productions.map fun (left, alternatives) =>
      memberText left (stringsText 2 alternatives))
  | .start => quote d.start
  | .level => (d.level.map fun n => (toString n.toNat).toList).getD "null".toList
  | .direction => (d.direction.map fun s => quote (directionName s)).getD "null".toList

/-- A draft that has one more part of a description. -/
def Draft.fill (draft : Draft) (d : Description) : Field → Draft
  | .nonterminals => { draft with nonterminals := some d.nonterminals }
  | .terminals => { draft with terminals := some d.terminals }
  | .productions => { draft with productions := some d.productions }
  | .start => { draft with start := some d.start }
  | .level => { draft with level := some d.level }
  | .direction => { draft with direction := some d.direction }

theorem part_partText (draft : Draft) (d : Description) (field : Field) {rest : List Char}
    (hrest : Ends rest) :
    part draft field (' ' :: (partText d field ++ rest)) = .ok (draft.fill d field, rest) := by
  -- Every reader skips blanks first, so with and without the blank the texts are read alike by definition.
  cases field with
  | nonterminals => exact bind_eq (list_stringsText 1 d.nonterminals rest)
  | terminals => exact bind_eq (list_stringsText 1 d.terminals rest)
  | productions => exact bind_eq (productions_block d.productions rest)
  | start => exact bind_eq (string_quote d.start rest)
  | level => exact bind_eq (optional_byte d.level hrest)
  | direction => exact bind_eq (optional_direction d.direction rest)

theorem ofName?_name (field : Field) : Field.ofName? field.name = some field := by
  cases field <;> decide

theorem descriptionMember_eq {draft : Draft} {d : Description} {field : Field}
    (hnew : draft.has field = false) {rest : List Char} (hrest : Ends rest) :
    descriptionMember draft field.name (':' :: ' ' :: (partText d field ++ rest)) =
      .ok (draft.fill d field, rest) := by
  rw [descriptionMember, ofName?_name]
  dsimp only
  rw [if_neg (by simp [hnew])]
  exact (bind_eq colon_eq).trans (part_partText draft d field hrest)

theorem Draft.has_fill (draft : Draft) (d : Description) (field other : Field) :
    (draft.fill d field).has other = (decide (other = field) || draft.has other) := by
  cases field <;> cases other <;> rfl

/-- Fields that are new to a draft read back, in whatever order they are written. -/
theorem readsMembers_parts (d : Description) {fields : List Field} (hnodup : fields.Nodup) {draft : Draft}
    (hnew : ∀ field ∈ fields, draft.has field = false) :
    ReadsMembers descriptionMember draft (fields.map fun field => (field.name, partText d field))
      (fields.foldl (fun draft field => draft.fill d field) draft) := by
  induction fields generalizing draft with
  | nil => exact .nil
  | cons field fields ih =>
    obtain ⟨hfield, hfields⟩ := List.forall_mem_cons.mp hnew
    obtain ⟨hnotMem, hnodup⟩ := List.nodup_cons.mp hnodup
    refine .cons (fun _ hrest => descriptionMember_eq hfield hrest) (ih hnodup ?_)
    intro other hother
    have hne : other ≠ field := fun h => hnotMem (h ▸ hother)
    rw [Draft.has_fill, hfields other hother, decide_eq_false hne, Bool.or_false]

/-- **Descriptions read back** from their JSON. -/
theorem parse_print (d : Description) : parse (print d) = .ok d := by
  have hall : ReadsMembers descriptionMember {} _ _ :=
    readsMembers_parts d (show Field.all.Nodup by decide) fun field _ => by cases field <;> rfl
  obtain ⟨text, htext, hmembers⟩ := members_block hall 0 []
  have hprint : printChars d = '\x7b' :: text := by
    rw [← htext, List.append_nil]
    rfl
  have hread : description (printChars d) = .ok (d, []) := by
    rw [hprint, description, bind_eq (peek_cons rfl)]
    refine (bind_eq rfl).trans ((bind_eq rfl).trans ((bind_eq hmembers).trans ?_))
    -- All parts are there, so the draft is the description.
    exact (bind_eq (close_eq rfl)).trans rfl
  rw [parse, run, print, String.toList_ofList, hread]
  rfl

end PhraseStructure.Json
