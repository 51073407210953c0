import PhraseStructure.Proofs.Lexemes

/-!
# What the text format is

The reader of the text format takes what it can get and never looks back.  Still it reads every text that
falls into the lexemes of a description, in whatever way the text was written: between two lexemes there is
always just one way to go on.  A list goes on where the mark between its entries stands and ends where
another mark stands (`many_closed_iff`), and the rules end where nothing but layout is left
(`productions_eq_some_iff`).

## Main definitions

* `lexemes`: the lexemes of a description.
* `Written`: a text holds a description.

## Main results

* `many_eq_some_iff`: what a greedy repetition reads.
* `parse_eq_ok_iff_written`: the reader accepts exactly the texts that hold a description.
-/

namespace PhraseStructure.RuleText

variable {α : Type} {cs rest : List Char}

/-! ## Repetitions -/

theorem fst_repeated_succ (reader : Reader α) (count : Nat) (cs : List Char) :
    (Reader.repeated reader (count + 1) cs).1 =
      match (reader cs).1 with
      | none => some ([], cs)
      | some (a, rest) => (Reader.repeated reader count rest).1.map fun (as, rest) => (a :: as, rest) := by
  rw [Reader.repeated]
  rcases reader cs with ⟨_ | ⟨a, rest⟩, misses⟩
  · rfl
  · rfl

section Many

variable {reader : Reader α} {Valid : α → Prop} {pieces : α → List Lexeme} {as : List α} {count : Nat}

theorem spelled_of_repeated
    (hreads : ∀ {cs a rest}, (reader cs).1 = some (a, rest) ↔ Valid a ∧ Spelled (pieces a) cs rest)
    (hpieces : ∀ a, pieces a ≠ []) (hlt : cs.length < count)
    (h : (Reader.repeated reader count cs).1 = some (as, rest)) :
    (∀ a ∈ as, Valid a) ∧ Spelled (as.flatMap pieces) cs rest ∧ (reader rest).1 = none := by
  induction count generalizing cs as with
  | zero => exact absurd hlt (Nat.not_lt_zero _)
  | succ count ih =>
    rw [fst_repeated_succ] at h
    cases hread : (reader cs).1 with
    | none =>
      rw [hread] at h
      cases h
      exact ⟨by simp, .nil, hread⟩
    | some read =>
      obtain ⟨a, mid⟩ := read
      rw [hread] at h
      obtain ⟨⟨as', rest'⟩, h, heq⟩ := Option.map_eq_some_iff.mp h
      cases heq
      obtain ⟨hvalid, hspelled⟩ := hreads.mp hread
      -- Something was read, so that one attempt less is still enough.
      have hshorter : mid.length < cs.length := by
        obtain ⟨l, ls, hl⟩ := List.exists_cons_of_ne_nil (hpieces a)
        exact (hl ▸ hspelled).length_lt
      obtain ⟨hvalids, hspelleds, hnone⟩ := ih (by omega) h
      exact ⟨List.forall_mem_cons.mpr ⟨hvalid, hvalids⟩,
        spelled_append.mpr ⟨mid, hspelled, hspelleds⟩, hnone⟩

theorem repeated_of_spelled
    (hreads : ∀ {cs a rest}, (reader cs).1 = some (a, rest) ↔ Valid a ∧ Spelled (pieces a) cs rest)
    (hpieces : ∀ a, pieces a ≠ []) (hlt : cs.length < count) (hvalid : ∀ a ∈ as, Valid a)
    (hspelled : Spelled (as.flatMap pieces) cs rest) (hnone : (reader rest).1 = none) :
    (Reader.repeated reader count cs).1 = some (as, rest) := by
  induction as generalizing cs count with
  | nil =>
    obtain rfl := spelled_nil.mp hspelled
    cases count with
    | zero => exact absurd hlt (Nat.not_lt_zero _)
    | succ count => rw [fst_repeated_succ, hnone]
  | cons a as ih =>
    obtain ⟨ha, has⟩ := List.forall_mem_cons.mp hvalid
    rw [List.flatMap_cons, spelled_append] at hspelled
    obtain ⟨mid, hfirst, hothers⟩ := hspelled
    have hshorter : mid.length < cs.length := by
      obtain ⟨l, ls, hl⟩ := List.exists_cons_of_ne_nil (hpieces a)
      exact (hl ▸ hfirst).length_lt
    cases count with
    | zero => exact absurd hlt (Nat.not_lt_zero _)
    | succ count =>
      rw [fst_repeated_succ, hreads.mpr ⟨ha, hfirst⟩]
      show Option.map _ _ = _
      rw [ih (by omega) has hothers]
      rfl

/-- **What a greedy repetition reads**: whatever is spelled one after the other, up to a place where the
reader fails. -/
theorem many_eq_some_iff
    (hreads : ∀ {cs a rest}, (reader cs).1 = some (a, rest) ↔ Valid a ∧ Spelled (pieces a) cs rest)
    (hpieces : ∀ a, pieces a ≠ []) :
    (Reader.many reader cs).1 = some (as, rest) ↔
      (∀ a ∈ as, Valid a) ∧ Spelled (as.flatMap pieces) cs rest ∧ (reader rest).1 = none := by
  constructor
  · exact spelled_of_repeated hreads hpieces (Nat.lt_succ_self _)
  · rintro ⟨hvalid, hspelled, hnone⟩
    exact repeated_of_spelled hreads hpieces (Nat.lt_succ_self _) hvalid hspelled hnone

end Many

/-- A repetition with separators has read nothing, or a first thing and then more of them. -/
theorem separatedBy_eq_some_iff {reader : Reader α} {separator : Reader Unit} {as : List α} :
    (Reader.separatedBy reader separator cs).1 = some (as, rest) ↔
      (as = [] ∧ rest = cs ∧ (reader cs).1 = none) ∨
      ∃ a as' mid, as = a :: as' ∧ (reader cs).1 = some (a, mid) ∧
        (Reader.many (separator >>= fun _ => reader) mid).1 = some (as', rest) := by
  rw [Reader.separatedBy]
  rcases hread : reader cs with ⟨_ | ⟨a, mid⟩, misses⟩
  · simp only [Option.some.injEq, Prod.mk.injEq, reduceCtorEq, false_and, and_false, exists_false,
      or_false, and_true]
    exact and_congr eq_comm eq_comm
  · show Option.map _ (Reader.many (separator >>= fun _ => reader) mid).1 = _ ↔ _
    rw [Option.map_eq_some_iff]
    constructor
    · rintro ⟨⟨as', rest'⟩, h, heq⟩
      cases heq
      exact Or.inr ⟨a, as', mid, rfl, rfl, h⟩
    · rintro (⟨-, -, hnone⟩ | ⟨a', as', mid', rfl, heq, h⟩)
      · cases hnone
      · cases heq
        exact ⟨_, h, rfl⟩

/-! ## The lexemes of a description -/

/-- Texts with a mark between each two of them. -/
def listed (separator : Mark) (piece : String → Lexeme) : List String → List Lexeme
  | [] => []
  | s :: ss => piece s :: ss.flatMap fun s => [.mark separator, piece s]

/-- A heading, an equals sign and names in braces. -/
def declarationLexemes (heading : Mark) (names : List String) : List Lexeme :=
  [.mark heading, .mark .equals, .mark .opening] ++ listed .comma .name names ++ [.mark .closing]

/-- A left side, an arrow, alternatives and a semicolon. -/
def ruleLexemes (rule : String × List String) : List Lexeme :=
  [.left rule.1, .mark .arrow] ++ listed .bar .alternative rule.2 ++ [.mark .semicolon]

/-- The lexemes of a description, in order. -/
def lexemes (d : Description) : List Lexeme :=
  declarationLexemes .nonterminals d.nonterminals ++ declarationLexemes .terminals d.terminals ++
    [.mark .start, .mark .equals, .name d.start] ++ d.productions.flatMap ruleLexemes

theorem lexemes_eq_append (d : Description) : lexemes d =
    declarationLexemes .nonterminals d.nonterminals ++
      (declarationLexemes .terminals d.terminals ++
        ([.mark .start, .mark .equals, .name d.start] ++ d.productions.flatMap ruleLexemes)) := by
  simp only [lexemes, List.append_assoc]

/-- A text holds a description: it falls into the lexemes of the description, with a layout before each of
them and one at the end.  Every rule has an alternative, and nothing is said about level and direction. -/
structure Written (d : Description) (cs : List Char) : Prop where
  level : d.level = none
  direction : d.direction = none
  alternatives : ∀ rule ∈ d.productions, rule.2 ≠ []
  spelled : ∃ rest, Spelled (lexemes d) cs rest ∧ Layout rest []

/-! ## Reading the lexemes of a description -/

section Lists

variable {token item : Reader String} {piece : String → Lexeme} {m close : Mark} {ss : List String}

/-- Tokens with marks before them are read up to the mark that closes the list. -/
theorem many_closed_iff
    (hitem : ∀ {cs s rest}, (item cs).1 = some (s, rest) ↔ Spelled [.mark m, piece s] cs rest)
    (hclose : m.text.toList.head? ≠ close.text.toList.head?) :
    (∃ mid, (Reader.many item cs).1 = some (ss, mid) ∧ Spelled [.mark close] mid rest) ↔
      Spelled (ss.flatMap (fun s => [.mark m, piece s]) ++ [.mark close]) cs rest := by
  have hreads : ∀ {cs s rest}, (item cs).1 = some (s, rest) ↔
      True ∧ Spelled [.mark m, piece s] cs rest := by
    intro cs s rest
    rw [hitem, true_and]
  rw [spelled_append]
  refine exists_congr fun mid => ?_
  rw [many_eq_some_iff hreads (fun _ => List.cons_ne_nil _ _)]
  constructor
  · rintro ⟨⟨-, hspelled, -⟩, hend⟩
    exact ⟨hspelled, hend⟩
  · rintro ⟨hspelled, hend⟩
    refine ⟨⟨fun _ _ => trivial, hspelled, ?_⟩, hend⟩
    -- Where the list is closed, another token would need another mark.
    rw [Option.eq_none_iff_forall_ne_some]
    rintro ⟨s, rest'⟩ hmore
    exact hclose ((hitem.mp hmore).head?_skipLayout.symm.trans hend.head?_skipLayout)

/-- A list that may be empty is read up to the mark that closes it. -/
theorem separatedBy_closed_iff {separator : Reader Unit}
    (htoken : ∀ {cs s rest}, (token (skipLayout false cs)).1 = some (s, rest) ↔
      Spelled [piece s] cs rest)
    (hitem : ∀ {cs s rest}, ((separator >>= fun _ => token) cs).1 = some (s, rest) ↔
      Spelled [.mark m, piece s] cs rest)
    (hclose : m.text.toList.head? ≠ close.text.toList.head?)
    (hdiffer : ∀ {cs s rest rest'}, Spelled [.mark close] cs rest → ¬ Spelled [piece s] cs rest') :
    (∃ mid, (Reader.separatedBy token separator (skipLayout false cs)).1 = some (ss, mid) ∧
        Spelled [.mark close] mid rest) ↔
      Spelled (listed m piece ss ++ [.mark close]) cs rest := by
  have hskip : Spelled [.mark close] (skipLayout false cs) rest ↔ Spelled [.mark close] cs rest := by
    rw [← skip_mark (u := ()), skipLayout_of_settled (settled_skipLayout false cs), skip_mark]
  simp only [separatedBy_eq_some_iff]
  cases ss with
  | nil =>
    -- The mark that closes the list is no token, so nothing is read in front of it.
    constructor
    · rintro ⟨mid, ⟨-, rfl, -⟩ | ⟨s, ss, -, h, -⟩, hend⟩
      · exact hskip.mp hend
      · cases h
    · intro hend
      refine ⟨_, Or.inl ⟨rfl, rfl, ?_⟩, hskip.mpr hend⟩
      rw [Option.eq_none_iff_forall_ne_some]
      rintro ⟨s, rest'⟩ hfirst
      exact hdiffer hend (htoken.mp hfirst)
  | cons s ss =>
    rw [listed, List.cons_append, spelled_cons]
    constructor
    · rintro ⟨mid, ⟨h, -⟩ | ⟨s', ss', mid', heq, hfirst, hmore⟩, hend⟩
      · cases h
      · cases heq
        exact ⟨mid', htoken.mp hfirst, (many_closed_iff hitem hclose).mp ⟨mid, hmore, hend⟩⟩
    · rintro ⟨mid', hfirst, hmore⟩
      obtain ⟨mid, hmany, hend⟩ := (many_closed_iff hitem hclose).mpr hmore
      exact ⟨mid, Or.inr ⟨s, ss, mid', rfl, htoken.mpr hfirst, hmany⟩, hend⟩

end Lists

theorem not_spelled_name_of_closing {rest' : List Char} {s : String}
    (h : Spelled [.mark .closing] cs rest) : ¬ Spelled [.name s] cs rest' := by
  intro hname
  have hhead : s.toList.head? = some '\x7d' := hname.head?_skipLayout.symm.trans h.head?_skipLayout
  have hmember := (spelled_singleton.mp hname).2.members _ (List.mem_of_head? hhead)
  exact absurd hmember (by decide)

/-- A comma and a name are read as such, and nothing else is. -/
theorem commaName_eq_some_iff {s : String} :
    (((do layout; Reader.text ","; layout) >>= fun _ => name : Reader String) cs).1 = some (s, rest) ↔
      Spelled [.mark .comma, .name s] cs rest := by
  simp only [Reader.fst_bind, fst_layout, Option.bind_some, Option.bind_assoc,
    Option.bind_eq_some_iff, Prod.exists, skip_name]
  rw [spelled_cons]
  exact ⟨fun ⟨_, mid, h, h'⟩ => ⟨mid, (skip_mark .comma).mp h, h'⟩,
    fun ⟨mid, h, h'⟩ => ⟨(), mid, (skip_mark .comma).mpr h, h'⟩⟩

/-- Names in braces are read as they are listed. -/
theorem nameList_eq_some_iff {names : List String} :
    (nameList (skipLayout false cs)).1 = some (names, rest) ↔
      Spelled ([.mark .opening] ++ listed .comma .name names ++ [.mark .closing]) cs rest := by
  rw [List.append_assoc, spelled_append]
  simp only [← separatedBy_closed_iff skip_name commaName_eq_some_iff (by decide)
    not_spelled_name_of_closing]
  simp only [nameList, Reader.fst_bind, fst_layout, Reader.fst_pure, Option.bind_some,
    Option.bind_eq_some_iff, Prod.exists]
  constructor
  · rintro ⟨_, mid, hopen, names', mid', hnames, _, rest', hclose, heq⟩
    cases heq
    exact ⟨mid, (skip_mark .opening).mp hopen, mid', hnames, (skip_mark .closing).mp hclose⟩
  · rintro ⟨mid, hopen, mid', hnames, hclose⟩
    exact ⟨(), mid, (skip_mark .opening).mpr hopen, names, mid', hnames, (), rest,
      (skip_mark .closing).mpr hclose, rfl⟩

/-- A declaration is a heading, an equals sign and what is declared. -/
theorem declaration_eq_some_iff {reader : Reader α} (heading : Mark) {a : α} :
    (declaration heading.text reader (skipLayout false cs)).1 = some (a, rest) ↔
      ∃ mid, Spelled [.mark heading, .mark .equals] cs mid ∧
        (reader (skipLayout false mid)).1 = some (a, rest) := by
  simp only [declaration, Reader.fst_bind, fst_layout, Option.bind_some, Option.bind_eq_some_iff,
    Prod.exists, skip_mark]
  constructor
  · rintro ⟨_, mid, hheading, _, mid', hequals, h⟩
    exact ⟨mid', spelled_cons.mpr ⟨mid, hheading, (skip_mark .equals).mp hequals⟩, h⟩
  · rintro ⟨mid', hmarks, h⟩
    obtain ⟨mid, hheading, hequals⟩ := spelled_cons.mp hmarks
    exact ⟨(), mid, hheading, (), mid', (skip_mark .equals).mpr hequals, h⟩

theorem nameDeclaration_eq_some_iff (heading : Mark) {names : List String} :
    (declaration heading.text nameList (skipLayout false cs)).1 = some (names, rest) ↔
      Spelled (declarationLexemes heading names) cs rest := by
  have hsplit : declarationLexemes heading names = [.mark heading, .mark .equals] ++
      ([.mark .opening] ++ listed .comma .name names ++ [.mark .closing]) := rfl
  rw [hsplit, spelled_append, declaration_eq_some_iff]
  simp only [nameList_eq_some_iff]

theorem startDeclaration_eq_some_iff {start : String} :
    (declaration "start" name (skipLayout false cs)).1 = some (start, rest) ↔
      Spelled [.mark .start, .mark .equals, .name start] cs rest := by
  rw [show [Lexeme.mark .start, .mark .equals, .name start] =
    [.mark .start, .mark .equals] ++ [.name start] from rfl, spelled_append]
  refine (declaration_eq_some_iff .start).trans ?_
  simp only [skip_name]

/-- A bar and an alternative are read as such, and nothing else is. -/
theorem barAlternative_eq_some_iff {s : String} :
    ((do layout; Reader.text "|"; layout; alternative : Reader String) cs).1 = some (s, rest) ↔
      Spelled [.mark .bar, .alternative s] cs rest := by
  simp only [Reader.fst_bind, fst_layout, Option.bind_some, Option.bind_eq_some_iff, Prod.exists,
    skip_alternative]
  rw [spelled_cons]
  exact ⟨fun ⟨_, mid, h, h'⟩ => ⟨mid, (skip_mark .bar).mp h, h'⟩,
    fun ⟨mid, h, h'⟩ => ⟨(), mid, (skip_mark .bar).mpr h, h'⟩⟩

/-- A rule is read with all its alternatives, of which there is at least one. -/
theorem production_eq_some_iff {rule : String × List String} :
    (production (skipLayout false cs)).1 = some (rule, rest) ↔
      rule.2 ≠ [] ∧ Spelled (ruleLexemes rule) cs rest := by
  have hclose : Mark.bar.text.toList.head? ≠ Mark.semicolon.text.toList.head? := by decide
  simp only [production, Reader.fst_bind, fst_layout, Reader.fst_pure, Option.bind_some,
    Option.bind_eq_some_iff, Prod.exists, skip_left, skip_alternative]
  obtain ⟨left, alternatives⟩ := rule
  constructor
  · rintro ⟨left', mid₁, hleft, _, mid₂, harrow, first, mid₃, hfirst, more, mid₄, hmore, _, rest',
      hend, heq⟩
    cases heq
    refine ⟨List.cons_ne_nil _ _, spelled_cons.mpr ⟨mid₁, hleft, spelled_cons.mpr
      ⟨mid₂, (skip_mark .arrow).mp harrow, spelled_cons.mpr ⟨mid₃, hfirst, ?_⟩⟩⟩⟩
    exact (many_closed_iff barAlternative_eq_some_iff hclose).mp
      ⟨mid₄, hmore, (skip_mark .semicolon).mp hend⟩
  · rintro ⟨hne, hspelled⟩
    obtain ⟨first, more, rfl⟩ := List.exists_cons_of_ne_nil hne
    obtain ⟨mid₁, hleft, hspelled⟩ := spelled_cons.mp hspelled
    obtain ⟨mid₂, harrow, hspelled⟩ := spelled_cons.mp hspelled
    obtain ⟨mid₃, hfirst, hspelled⟩ := spelled_cons.mp hspelled
    obtain ⟨mid₄, hmore, hend⟩ := (many_closed_iff barAlternative_eq_some_iff hclose).mpr hspelled
    exact ⟨left, mid₁, hleft, (), mid₂, (skip_mark .arrow).mpr harrow, first, mid₃, hfirst, more,
      mid₄, hmore, (), rest, (skip_mark .semicolon).mpr hend, rfl⟩

/-- The layout in front of a rule may be skipped apart. -/
theorem layoutProduction_eq_some_iff {rule : String × List String} :
    ((layout >>= fun _ => production) cs).1 = some (rule, rest) ↔
      rule.2 ≠ [] ∧ Spelled (ruleLexemes rule) cs rest :=
  production_eq_some_iff

theorem production_eq_none_of_layout (h : Layout cs []) :
    (production (skipLayout false cs)).1 = none := by
  rw [(skipLayout_eq_iff settled_nil).mpr h]
  rfl

/-- Rules are read up to the layout at the end of the text. -/
theorem productions_eq_some_iff {rules : List (String × List String)} :
    (∃ mid, (Reader.separatedBy production layout (skipLayout false cs)).1 = some (rules, mid) ∧
        skipLayout false mid = []) ↔
      (∀ rule ∈ rules, rule.2 ≠ []) ∧
        ∃ mid, Spelled (rules.flatMap ruleLexemes) cs mid ∧ Layout mid [] := by
  have hpieces : ∀ rule, ruleLexemes rule ≠ [] := fun _ => List.cons_ne_nil _ _
  have hend : ∀ {mid}, Layout mid [] → ((layout >>= fun _ => production) mid).1 = none := by
    intro mid h
    simpa only [Reader.fst_bind, fst_layout, Option.bind_some] using production_eq_none_of_layout h
  simp only [separatedBy_eq_some_iff, skipLayout_eq_iff settled_nil]
  cases rules with
  | nil =>
    -- Without a rule there is nothing but layout, and the reader of rules fails on that.
    simp only [List.flatMap_nil, spelled_nil]
    constructor
    · rintro ⟨mid, ⟨-, rfl, -⟩ | ⟨_, _, _, h, -⟩, hlayout⟩
      · refine ⟨by simp, cs, rfl, ?_⟩
        rw [← skipLayout_eq_iff settled_nil] at hlayout ⊢
        rwa [skipLayout_of_settled (settled_skipLayout false cs)] at hlayout
      · cases h
    · rintro ⟨-, _, rfl, hlayout⟩
      refine ⟨_, Or.inl ⟨trivial, rfl, production_eq_none_of_layout hlayout⟩, ?_⟩
      rw [(skipLayout_eq_iff settled_nil).mpr hlayout]
      exact .none
  | cons rule rules =>
    simp only [List.flatMap_cons, spelled_append, List.forall_mem_cons]
    constructor
    · rintro ⟨mid, ⟨h, -⟩ | ⟨rule', rules', mid', heq, hfirst, hmore⟩, hlayout⟩
      · cases h
      · cases heq
        obtain ⟨hne, hfirst⟩ := production_eq_some_iff.mp hfirst
        obtain ⟨hnes, hmore, -⟩ := (many_eq_some_iff layoutProduction_eq_some_iff hpieces).mp hmore
        exact ⟨⟨hne, hnes⟩, mid, ⟨mid', hfirst, hmore⟩, hlayout⟩
    · rintro ⟨⟨hne, hnes⟩, mid, ⟨mid', hfirst, hmore⟩, hlayout⟩
      exact ⟨mid, Or.inr ⟨rule, rules, mid', rfl, production_eq_some_iff.mpr ⟨hne, hfirst⟩,
        (many_eq_some_iff layoutProduction_eq_some_iff hpieces).mpr ⟨hnes, hmore, hend hlayout⟩⟩, hlayout⟩

/-- The reader of descriptions reads a whole text exactly if the text holds the description. -/
theorem description_eq_some_iff {d : Description} :
    (description cs).1 = some (d, []) ↔ Written d cs := by
  simp only [description, Reader.fst_bind, fst_layout, Reader.fst_pure, Option.bind_some,
    Option.bind_eq_some_iff, Prod.exists, startDeclaration_eq_some_iff]
  constructor
  · rintro ⟨nonterminals, mid₁, hn, terminals, mid₂, ht, start, mid₃, hs, rules, mid₄, hrules, heq⟩
    obtain ⟨rfl, hskip⟩ := Prod.mk.inj (Option.some.inj heq)
    obtain ⟨hne, rest, hspelled, hlayout⟩ := productions_eq_some_iff.mp ⟨mid₄, hrules, hskip⟩
    refine ⟨rfl, rfl, hne, rest, ?_, hlayout⟩
    rw [lexemes_eq_append]
    have hn := (nameDeclaration_eq_some_iff .nonterminals).mp hn
    have ht := (nameDeclaration_eq_some_iff .terminals).mp ht
    exact spelled_append.mpr ⟨mid₁, hn, spelled_append.mpr ⟨mid₂, ht,
      spelled_append.mpr ⟨mid₃, hs, hspelled⟩⟩⟩
  · rintro ⟨hlevel, hdirection, hne, rest, hspelled, hlayout⟩
    rw [lexemes_eq_append] at hspelled
    obtain ⟨mid₁, hn, hspelled⟩ := spelled_append.mp hspelled
    obtain ⟨mid₂, ht, hspelled⟩ := spelled_append.mp hspelled
    obtain ⟨mid₃, hs, hspelled⟩ := spelled_append.mp hspelled
    obtain ⟨mid₄, hrules, hskip⟩ := productions_eq_some_iff.mpr ⟨hne, rest, hspelled, hlayout⟩
    refine ⟨_, mid₁, (nameDeclaration_eq_some_iff .nonterminals).mpr hn,
      _, mid₂, (nameDeclaration_eq_some_iff .terminals).mpr ht, _, mid₃, hs, _, mid₄, hrules, ?_⟩
    rw [hskip, ← hlevel, ← hdirection]

/-- A text is accepted if nothing is left of it behind a description. -/
theorem parse_eq_ok_iff {s : String} {d : Description} :
    parse s = .ok d ↔ (description s.toList).1 = some (d, []) := by
  unfold parse Reader.bind
  rcases description s.toList with ⟨_ | ⟨d', rest⟩, misses⟩
  · simp
  · cases rest with
    | nil => simp [ending, Reader.pure]
    | cons c rest => simp [ending]

/-- **The format is what its reader reads**: a text is read as a description exactly if it falls into the
lexemes of the description, each of them as long as it can be, with layout before them and at the end. -/
theorem parse_eq_ok_iff_written (s : String) (d : Description) :
    parse s = .ok d ↔ Written d s.toList := by
  rw [parse_eq_ok_iff, description_eq_some_iff]

end PhraseStructure.RuleText
