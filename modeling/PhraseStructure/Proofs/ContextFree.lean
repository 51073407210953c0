import PhraseStructure.Proofs.Language

/-!
# Context-free derivations

A chart knows only the rules that replace single symbols, and it uses only those that replace a
nonterminal.  `Grammar.RuleDerives` is derivation with these rules.  For a word of terminals it can be
read from left to right: `Grammar.Yields` takes a form symbol by symbol, a terminal for itself and a
nonterminal for what the right side of one of its rules yields.  The two say the same
(`yields_iff`), and at levels 2 and 3 both say what derivation says (`generates_iff_yields`).

## Main definitions

* `Grammar.RuleStep`, `Grammar.RuleDerives`: one context-free step, and any number of them.
* `Grammar.Yields`: a form yields a word, symbol by symbol.

## Main results

* `Grammar.yields_iff`: yielding is deriving a word of terminals.
* `Grammar.RuleDerives.derives`: context-free derivations are derivations.
* `Grammar.generates_iff_yields`: at levels 2 and 3 the start symbol yields the language.
-/

namespace PhraseStructure.Grammar

variable {g : Grammar} {f f' u v w : Word} {c : Symbol}

/-- One context-free step: a nonterminal gives way to the right side of one of its rules. -/
def RuleStep (g : Grammar) (f f' : Word) : Prop :=
  ∃ rule ∈ g.rules, rule.left ∈ g.vocabulary.nonterminals ∧
    ∃ u v, f = u ++ [rule.left] ++ v ∧ f' = u ++ rule.right ++ v

/-- One form can be turned into another by any number of context-free steps. -/
def RuleDerives (g : Grammar) : Word → Word → Prop :=
  Relation.ReflTransGen g.RuleStep

/-- A form yields a word of terminals: a terminal yields itself, and a nonterminal what the right side of
one of its rules yields. -/
inductive Yields (g : Grammar) : Word → Word → Prop where
  /-- Nothing is left. -/
  | nil : Yields g [] []
  /-- A terminal stands for itself. -/
  | terminal {c : Symbol} {f w : Word} :
      c ∈ g.vocabulary.terminals → Yields g f w → Yields g (c :: f) (c :: w)
  /-- A nonterminal stands for what a rule makes of it. -/
  | rule {rule : Rule} {f u v : Word} : rule ∈ g.rules → rule.left ∈ g.vocabulary.nonterminals →
      Yields g rule.right u → Yields g f v → Yields g (rule.left :: f) (u ++ v)

/-! ## Yielding, part by part -/

theorem Yields.append (h : g.Yields f u) (h' : g.Yields f' v) : g.Yields (f ++ f') (u ++ v) := by
  induction h with
  | nil => exact h'
  | terminal hc _ ih => exact .terminal hc ih
  | rule hrule hleft hright _ _ ih =>
    rw [List.append_assoc]
    exact .rule hrule hleft hright ih

theorem Yields.exists_append (h : g.Yields (f ++ f') w) :
    ∃ u v, w = u ++ v ∧ g.Yields f u ∧ g.Yields f' v := by
  generalize hform : f ++ f' = form at h
  induction h generalizing f with
  | nil =>
    obtain ⟨rfl, rfl⟩ := List.append_eq_nil_iff.mp hform
    exact ⟨[], [], rfl, .nil, .nil⟩
  | @terminal c form w hc hyields ih =>
    rcases List.append_eq_cons_iff.mp hform with ⟨rfl, rfl⟩ | ⟨f₁, rfl, rfl⟩
    · exact ⟨[], c :: w, rfl, .nil, .terminal hc hyields⟩
    · obtain ⟨u, v, rfl, hu, hv⟩ := ih rfl
      exact ⟨c :: u, v, rfl, .terminal hc hu, hv⟩
  | @rule rule form u v hrule hleft hright hyields _ ih =>
    rcases List.append_eq_cons_iff.mp hform with ⟨rfl, rfl⟩ | ⟨f₁, rfl, rfl⟩
    · exact ⟨[], u ++ v, rfl, .nil, .rule hrule hleft hright hyields⟩
    · obtain ⟨v₁, v₂, rfl, hv₁, hv₂⟩ := ih rfl
      exact ⟨u ++ v₁, v₂, by rw [List.append_assoc], .rule hrule hleft hright hv₁, hv₂⟩

theorem Yields.terminals (h : g.Yields f w) : ∀ c ∈ w, c ∈ g.vocabulary.terminals := by
  induction h with
  | nil => simp
  | terminal hc _ ih =>
    intro d hd
    rcases List.mem_cons.mp hd with rfl | hd
    · exact hc
    · exact ih d hd
  | rule _ _ _ _ ihu ihv =>
    intro d hd
    rcases List.mem_append.mp hd with hd | hd
    · exact ihu d hd
    · exact ihv d hd

theorem yields_self (hw : ∀ c ∈ w, c ∈ g.vocabulary.terminals) : g.Yields w w := by
  induction w with
  | nil => exact .nil
  | cons c w ih =>
    exact .terminal (hw c List.mem_cons_self) (ih fun d hd => hw d (List.mem_cons_of_mem c hd))

theorem yields_singleton {rule : Rule} (hrule : rule ∈ g.rules)
    (hleft : rule.left ∈ g.vocabulary.nonterminals) (h : g.Yields rule.right w) :
    g.Yields [rule.left] w := by
  rw [← List.append_nil w]
  exact .rule hrule hleft h .nil

/-! ## Yielding is deriving -/

theorem RuleStep.context (h : g.RuleStep f f') (u v : Word) :
    g.RuleStep (u ++ f ++ v) (u ++ f' ++ v) := by
  obtain ⟨rule, hrule, hleft, u', v', rfl, rfl⟩ := h
  exact ⟨rule, hrule, hleft, u ++ u', v' ++ v, by simp, by simp⟩

theorem RuleDerives.context (h : g.RuleDerives f f') (u v : Word) :
    g.RuleDerives (u ++ f ++ v) (u ++ f' ++ v) := by
  induction h with
  | refl => exact .refl
  | tail _ hstep ih => exact ih.tail (hstep.context u v)

theorem RuleDerives.append (h : g.RuleDerives f u) (h' : g.RuleDerives f' v) :
    g.RuleDerives (f ++ f') (u ++ v) := by
  have hfront : g.RuleDerives (f ++ f') (u ++ f') := by simpa using h.context [] f'
  have hback : g.RuleDerives (u ++ f') (u ++ v) := by simpa using h'.context u []
  exact hfront.trans hback

theorem Yields.ruleDerives (h : g.Yields f w) : g.RuleDerives f w := by
  induction h with
  | nil => exact .refl
  | @terminal c f w _ _ ih => exact RuleDerives.append (f := [c]) (u := [c]) .refl ih
  | @rule rule f u v hrule hleft _ _ ihu ihv =>
    have hstep : g.RuleStep [rule.left] rule.right := ⟨rule, hrule, hleft, [], [], by simp, by simp⟩
    exact RuleDerives.append (f := [rule.left]) (ihu.head hstep) ihv

/-- Undoing a step does not change what is yielded. -/
theorem RuleStep.yields (h : g.RuleStep f f') (hw : g.Yields f' w) : g.Yields f w := by
  obtain ⟨rule, hrule, hleft, u, v, rfl, rfl⟩ := h
  -- The word falls into what the context yields on both sides and what the right side yields.
  obtain ⟨w₁, w₃, rfl, hw₁, hv⟩ := hw.exists_append
  obtain ⟨w₁, w₂, rfl, hu, hright⟩ := hw₁.exists_append
  exact (hu.append (yields_singleton hrule hleft hright)).append hv

/-- **Yielding is deriving a word of terminals** with context-free steps. -/
theorem yields_iff :
    g.Yields f w ↔ (∀ c ∈ w, c ∈ g.vocabulary.terminals) ∧ g.RuleDerives f w := by
  refine ⟨fun h => ⟨h.terminals, h.ruleDerives⟩, ?_⟩
  rintro ⟨hw, h⟩
  induction h using Relation.ReflTransGen.head_induction_on with
  | refl => exact yields_self hw
  | head hstep _ ih => exact hstep.yields ih

/-! ## Context-free derivations among all derivations -/

theorem RuleStep.step (h : g.RuleStep f f') : g.Step f f' := by
  obtain ⟨rule, hrule, -, u, v, rfl, rfl⟩ := h
  exact step_of_mem_alternatives (mem_rules.mp hrule) u v

theorem RuleDerives.derives (h : g.RuleDerives f f') : g.Derives f f' := by
  induction h with
  | refl => exact .refl
  | tail _ hstep ih => exact ih.tail hstep.step

theorem Step.ruleStep (hlevel : g.level = .contextFree ∨ g.level = .regular) (h : g.Step f f') :
    g.RuleStep f f' := by
  obtain ⟨p, hp, r, hr, u, v, rfl, rfl⟩ := h
  obtain ⟨c, hc, hleft⟩ := exists_left_eq hlevel hp
  have hrule : ⟨c, r⟩ ∈ g.rules := mem_rules.mpr (mem_alternatives.mpr ⟨p, hp, hleft, hr⟩)
  exact ⟨⟨c, r⟩, hrule, hc, u, v, by rw [hleft], rfl⟩

theorem Derives.ruleDerives (hlevel : g.level = .contextFree ∨ g.level = .regular)
    (h : g.Derives f f') : g.RuleDerives f f' := by
  induction h with
  | refl => exact .refl
  | tail _ hstep ih => exact ih.tail (hstep.ruleStep hlevel)

/-- At levels 2 and 3 the words of the language are those that the start symbol yields. -/
theorem generates_iff_yields (hlevel : g.level = .contextFree ∨ g.level = .regular) :
    g.Generates w ↔ g.Yields [g.start] w := by
  rw [yields_iff]
  exact and_congr_right fun _ => ⟨Derives.ruleDerives hlevel, RuleDerives.derives⟩

end PhraseStructure.Grammar
