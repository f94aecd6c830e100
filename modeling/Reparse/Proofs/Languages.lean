import Mathlib
import Reparse.Proofs.Derivation
import Reparse.Proofs.Terminals

/-! # The languages of rule bodies and of symbols -/

/-- Sets of words. Apart from them, languages are what grammars are compiled to. -/
abbrev FormalLanguage (α : Type) : Type := Language α

namespace Reparse.Grammar
open Computability
open Lexer (Pattern)

/-! ## Rule bodies -/

/-- The languages that literals, names and patterns stand for. -/
structure Meaning where
  text : String → FormalLanguage Kind
  symbol : String → FormalLanguage Kind
  pattern : Pattern → FormalLanguage Kind

/-- What a meaning says is said by another one, too. -/
structure Meaning.Within (m m' : Meaning) : Prop where
  text : ∀ x, m.text x ≤ m'.text x
  symbol : ∀ x, m.symbol x ≤ m'.symbol x
  pattern : ∀ x, m.pattern x ≤ m'.pattern x

namespace Expr

mutual
/-- The words that an expression describes. Fields and precedences make no difference to them. -/
def language (m : Meaning) : Expr → FormalLanguage Kind
  | .blank => 1
  | .text literal => m.text literal
  | .symbol name => m.symbol name
  | .pattern p => m.pattern p
  | .seq items => languageOfSeq m items
  | .choice items => languageOfChoice m items
  | .repeated body => (language m body)∗
  | .repeated1 body => language m body * (language m body)∗
  | .optional body => language m body + 1
  | .field _ body => language m body
  | .prec _ body => language m body
  | .dynamic _ body => language m body

/-- Words of all items, one after another. -/
def languageOfSeq (m : Meaning) : List Expr → FormalLanguage Kind
  | [] => 1
  | e :: rest => language m e * languageOfSeq m rest

/-- Words of some item. -/
def languageOfChoice (m : Meaning) : List Expr → FormalLanguage Kind
  | [] => 0
  | e :: rest => language m e + languageOfChoice m rest
end

mutual
theorem language_mono {m m' : Meaning} (h : m.Within m') : ∀ e : Expr, language m e ≤ language m' e
  | .blank => le_rfl
  | .text x => h.text x
  | .symbol x => h.symbol x
  | .pattern x => h.pattern x
  | .seq items => languageOfSeq_mono h items
  | .choice items => languageOfChoice_mono h items
  | .repeated body => kstar_mono (language_mono h body)
  | .repeated1 body => mul_le_mul' (language_mono h body) (kstar_mono (language_mono h body))
  | .optional body => add_le_add (language_mono h body) le_rfl
  | .field _ body => language_mono h body
  | .prec _ body => language_mono h body
  | .dynamic _ body => language_mono h body

private theorem languageOfSeq_mono {m m' : Meaning} (h : m.Within m') :
    ∀ items : List Expr, languageOfSeq m items ≤ languageOfSeq m' items
  | [] => le_rfl
  | e :: rest => mul_le_mul' (language_mono h e) (languageOfSeq_mono h rest)

private theorem languageOfChoice_mono {m m' : Meaning} (h : m.Within m') :
    ∀ items : List Expr, languageOfChoice m items ≤ languageOfChoice m' items
  | [] => le_rfl
  | e :: rest => add_le_add (language_mono h e) (languageOfChoice_mono h rest)
end

end Expr

/-- The word of the terminal that goes by some key, such as a literal by its text. Terminals are
numbered from 2 on. -/
def terminalWord {κ : Type} (g : Grammar) (key : Terminal → Option κ) (x : κ) :
    FormalLanguage Kind :=
  {w | ∃ i t, g.terminals[i]? = some t ∧ key t = some x ∧ w = [⟨i + 2⟩]}

/-- What literals, names and patterns stand for if each rule has some language. -/
def meaning (g : Grammar) (rules : String → FormalLanguage Kind) : Meaning where
  text := g.terminalWord Terminal.text?
  symbol name :=
    if name ∈ g.draft.rules.map (·.1) then rules name else g.terminalWord Terminal.name? name
  pattern := g.terminalWord Terminal.pattern?

/-- The language of each rule is that of its body. -/
def Solves (g : Grammar) (rules : String → FormalLanguage Kind) : Prop :=
  ∀ rule ∈ g.draft.rules, rules rule.1 = rule.2.language (g.meaning rules)

private theorem meaning_within (g : Grammar) {rules rules' : String → FormalLanguage Kind}
    (h : rules ≤ rules') :
    (g.meaning rules).Within (g.meaning rules') := by
  refine ⟨fun _ => le_rfl, fun name => ?_, fun _ => le_rfl⟩
  by_cases hname : name ∈ g.draft.rules.map (·.1)
  · simpa only [meaning, if_pos hname] using h name
  · simp only [meaning, if_neg hname, le_rfl]

/-- The languages of the bodies of the rules if the rules have some languages. -/
def bodies (g : Grammar) : (String → FormalLanguage Kind) →o (String → FormalLanguage Kind) where
  toFun rules name :=
    {w | ∃ rule ∈ g.draft.rules, rule.1 = name ∧ w ∈ rule.2.language (g.meaning rules)}
  monotone' := by
    rintro rules rules' h name w ⟨rule, hrule, hname, hw⟩
    exact ⟨rule, hrule, hname, Expr.language_mono (g.meaning_within h) rule.2 hw⟩

/-- The languages of the rules, where nothing is in them without a reason. -/
def languages (g : Grammar) : String → FormalLanguage Kind := OrderHom.lfp g.bodies

private theorem bodies_rule {d : Draft} {g : Grammar} (hd : d.validate = .ok g)
    (rules : String → FormalLanguage Kind) {rule : String × Expr} (hrule : rule ∈ g.draft.rules) :
    g.bodies rules rule.1 = rule.2.language (g.meaning rules) := by
  ext w
  constructor
  · rintro ⟨other, hother, hname, hw⟩
    obtain rfl := List.inj_on_of_nodup_map (List.nodup_append.1 (Draft.nodup_of_validate hd)).2.1
      hother hrule hname
    exact hw
  · exact fun hw => ⟨rule, hrule, rfl, hw⟩

theorem languages_le {g : Grammar} {rules : String → FormalLanguage Kind}
    (h : ∀ rule ∈ g.draft.rules, rule.2.language (g.meaning rules) ≤ rules rule.1) :
    g.languages ≤ rules := by
  refine OrderHom.lfp_le _ ?_
  rintro _ w ⟨rule, hrule, rfl, hw⟩
  exact h rule hrule hw

theorem isLeast_languages {d : Draft} {g : Grammar} (hd : d.validate = .ok g) :
    IsLeast {rules | g.Solves rules} g.languages := by
  refine ⟨fun rule hrule => ?_, fun rules hrules => languages_le fun rule hrule =>
    (hrules rule hrule).ge⟩
  calc g.languages rule.1 = g.bodies g.languages rule.1 :=
        congrFun (OrderHom.map_lfp g.bodies).symm rule.1
    _ = rule.2.language (g.meaning g.languages) := bodies_rule hd _ hrule

/-! ## Symbols -/

/-- The words of terminals that a symbol derives. -/
def Flat.language (g : Flat) (k : Kind) : FormalLanguage Kind :=
  {w | Derives g [k] w ∧ ∀ x ∈ w, g.isTerminal x = true}

/-- The language of a left-hand side has all words of the right-hand side. -/
def Obeys (J : Kind → FormalLanguage Kind) (p : Production) : Prop :=
  (p.steps.map fun s => J s.symbol).prod ≤ J p.lhs

namespace Flat

variable {g : Flat} {J : Kind → FormalLanguage Kind} {k : Kind} {a b w : List Kind}

private theorem derives_of_mem_prod (h : w ∈ (a.map g.language).prod) :
    Derives g a w ∧ ∀ x ∈ w, g.isTerminal x = true := by
  induction a generalizing w with
  | nil =>
    obtain rfl : w = [] := h
    exact ⟨.refl, nofun⟩
  | cons k rest ih =>
    rw [List.map_cons, List.prod_cons] at h
    obtain ⟨u, hu, v, hv, rfl⟩ := Language.mem_mul.1 h
    obtain ⟨hrest, hterminal⟩ := ih hv
    exact ⟨hu.1.append hrest, fun x hx => (List.mem_append.1 hx).elim (hu.2 x) (hterminal x)⟩

/-- What symbols derive obeys all productions. -/
theorem obeys_language {p : Production} (hp : p ∈ g.productions) : Obeys g.language p := by
  obtain ⟨q, hq⟩ := Array.getElem?_of_mem hp
  intro w hw
  have hmap : (p.steps.map fun s => g.language s.symbol) =
      (p.steps.map (·.symbol)).map g.language := by
    rw [List.map_map]
    rfl
  rw [hmap] at hw
  obtain ⟨hderives, hterminal⟩ := derives_of_mem_prod hw
  exact ⟨(derives_of_production hq).trans hderives, hterminal⟩

/-- A terminal derives itself only. -/
theorem language_terminal (hlhs : ∀ p ∈ g.productions, g.isTerminal p.lhs = false)
    (hk : g.isTerminal k = true) :
    g.language k = {[k]} := by
  ext w
  constructor
  · rintro ⟨hderives, -⟩
    cases yields_of_derives hderives with
    | keep _ rest =>
      cases rest
      rfl
    | expand hp rest =>
      rw [hlhs _ (Array.mem_of_getElem? hp)] at hk
      contradiction
  · rintro rfl
    exact ⟨.refl, by simpa using hk⟩

private theorem mem_prod_self (hterminal : ∀ x, g.isTerminal x = true → [x] ∈ J x)
    (hw : ∀ x ∈ w, g.isTerminal x = true) :
    w ∈ (w.map J).prod := by
  induction w with
  | nil => exact Language.nil_mem_one
  | cons x rest ih =>
    exact Language.mem_mul.2 ⟨[x], hterminal x (hw x List.mem_cons_self), rest,
      ih fun y hy => hw y (List.mem_cons_of_mem _ hy), rfl⟩

private theorem prod_le_of_rewrites (hobeys : ∀ p ∈ g.productions, Obeys J p) (h : Rewrites g a b) :
    (b.map J).prod ≤ (a.map J).prod := by
  cases h with
  | @step q p hp before after =>
    have hp' : ((p.steps.map (·.symbol)).map J).prod ≤ J p.lhs := by
      rw [List.map_map]
      exact hobeys p (Array.mem_of_getElem? hp)
    simp only [List.map_append, List.map_cons, List.prod_append, List.prod_cons]
    gcongr

/-- Whatever obeys all productions and has the terminals has all words that symbols derive. -/
theorem language_le (hobeys : ∀ p ∈ g.productions, Obeys J p)
    (hterminal : ∀ x, g.isTerminal x = true → [x] ∈ J x) (k : Kind) : g.language k ≤ J k := by
  rintro w ⟨hderives, hw⟩
  have hle {a b : List Kind} (h : Derives g a b) : (b.map J).prod ≤ (a.map J).prod := by
    induction h with
    | refl => exact le_refl _
    | tail _ hstep ih => exact (prod_le_of_rewrites hobeys hstep).trans ih
  have hmem := hle hderives (mem_prod_self hterminal hw)
  rwa [List.map_singleton, List.prod_singleton] at hmem

end Flat
end Reparse.Grammar
