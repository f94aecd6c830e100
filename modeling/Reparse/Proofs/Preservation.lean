import Reparse.Proofs.Brackets
import Reparse.Proofs.Rendering

/-! # Flattening keeps the languages of rules -/
namespace Reparse.Grammar
open Computability
open Lexer (Pattern)

namespace Lowering

variable {scope : Scope} {m : Meaning} {J : Kind → FormalLanguage Kind} {st st' st'' : State}

/-- The productions from one state to another mean that some symbols have some words at least. -/
structure Defines (J : Kind → FormalLanguage Kind) (loops : List (FormalLanguage Kind))
    (bounds : List (FormalLanguage Kind × Kind)) (st st' : State) : Prop where
  size : st'.symbols.size = st.symbols.size + loops.length
  complete : st'.Obeyed J → st.Obeyed J ∧ ∀ b ∈ bounds, b.1 ≤ J b.2
  sound : Loops J st.symbols.size loops → (∀ b ∈ bounds, b.1 ≤ J b.2) → st.Obeyed J → st'.Obeyed J

private theorem Defines.append {loops more : List (FormalLanguage Kind)}
    {bounds others : List (FormalLanguage Kind × Kind)} (h : Defines J loops bounds st st')
    (h' : Defines J more others st' st'') :
    Defines J (loops ++ more) (bounds ++ others) st st'' where
  size := by rw [h'.size, h.size, List.length_append, Nat.add_assoc]
  complete hst := by
    obtain ⟨hst', hothers⟩ := h'.complete hst
    obtain ⟨hst, hbounds⟩ := h.complete hst'
    exact ⟨hst, List.forall_mem_append.2 ⟨hbounds, hothers⟩⟩
  sound hloops hbounds hst := by
    rw [loops_append, ← h.size] at hloops
    rw [List.forall_mem_append] at hbounds
    exact h'.sound hloops.2 hbounds.2 (h.sound hloops.1 hbounds.1 hst)

/-- A rule has the words of its body. -/
private theorem defines_lowerRule (hscope : scope.Means J m) {rule : (String × Expr) × Kind}
    (hcovers : scope.Covers rule.1.2.parts) (h : lowerRule scope st rule = .ok st') :
    Defines J (rule.1.2.loops.map (·.language m)) [(rule.1.2.language m, rule.2)] st st' := by
  obtain ⟨⟨alts, st₁⟩, hlower, h⟩ := bind_eq_ok.1 h
  simp only at h
  split at h
  · contradiction
  · obtain rfl := Except.ok.inj h
    have hbody := renders_lower hscope rule.1.2 {} _ st₁ alts hcovers hlower
    constructor
    case size => rw [State.symbols_addAlternatives, hbody.size]
    case complete =>
      intro hst
      obtain ⟨hst₁, hle⟩ := State.obeyed_addAlternatives.1 hst
      refine ⟨hbody.grown hst₁, fun b hb => ?_⟩
      rw [List.mem_singleton.1 hb]
      exact (hbody.complete hst₁).trans hle
    case sound =>
      intro hloops hbounds hst
      obtain ⟨hle, hkeep⟩ := hbody.sound hloops
      exact State.obeyed_addAlternatives.2 ⟨hkeep hst, hle.trans (hbounds _ List.mem_cons_self)⟩

private theorem defines_lowerRules (hscope : scope.Means J m)
    {rules : List ((String × Expr) × Kind)} (hcovers : ∀ rule ∈ rules, scope.Covers rule.1.2.parts)
    (h : rules.foldlM (lowerRule scope) st = .ok st') :
    Defines J (rules.flatMap fun rule => rule.1.2.loops.map (·.language m))
      (rules.map fun rule => (rule.1.2.language m, rule.2)) st st' := by
  induction rules generalizing st with
  | nil =>
    obtain rfl : st = st' := Except.ok.inj h
    exact ⟨rfl, fun hst => ⟨hst, nofun⟩, fun _ _ hst => hst⟩
  | cons rule rest ih =>
    rw [List.foldlM_cons] at h
    obtain ⟨st₁, hfirst, h⟩ := bind_eq_ok.1 h
    rw [List.forall_mem_cons] at hcovers
    exact (defines_lowerRule hscope hcovers.1 hfirst).append (ih hcovers.2 h)

end Lowering

open Lowering

variable {d : Draft} {g : Grammar} {flat : Flat} {J : Kind → FormalLanguage Kind}
  {rules : String → FormalLanguage Kind}

private theorem terminalWord_eq {κ : Type} {key : Terminal → Option κ}
    (h : (g.terminals.filterMap key).Nodup) {i : Nat} {t : Terminal} {x : κ}
    (hi : g.terminals[i]? = some t) (ht : key t = some x) : g.terminalWord key x = {[⟨i + 2⟩]} := by
  ext w
  constructor
  · rintro ⟨j, u, hj, hu, rfl⟩
    rw [Terminal.eq_of_nodup h hi hj ht hu]
    exact rfl
  · rintro rfl
    exact ⟨i, t, hi, ht, rfl⟩

/-- Terminals have themselves, and rules the languages by their names. -/
structure Interprets (g : Grammar) (flat : Flat) (rules : String → FormalLanguage Kind)
    (J : Kind → FormalLanguage Kind) :
    Prop where
  terminal : ∀ k, flat.isTerminal k = true → J k = {[k]}
  rule : ∀ i rule, g.draft.rules[i]? = some rule → J ⟨flat.terminalCount + i⟩ = rules rule.1

namespace Interprets

variable (f : Flattening g flat) (h : Interprets g flat rules J)
include f h

private theorem key {κ : Type} [BEq κ] [LawfulBEq κ] [Hashable κ] {key : Terminal → Option κ}
    (hnodup : (g.terminals.filterMap key).Nodup) {x : κ} {k : Kind}
    (hk : (number {} 2 (g.terminals.map key))[x]? = some k) : J k = g.terminalWord key x := by
  rcases of_getElem?_number hk with ⟨i, hi, rfl⟩ | ⟨-, hnone⟩
  · rw [List.getElem?_map, Option.map_eq_some_iff] at hi
    obtain ⟨t, hi, ht⟩ := hi
    obtain ⟨hlt, -⟩ := List.getElem?_eq_some_iff.1 hi
    have hcount := f.terminalCount_eq
    have hle := f.terminalCount_le
    have hkind : Kind.ofNat (2 + i) = ⟨i + 2⟩ := by
      rw [Kind.ofNat, Nat.min_eq_left (by omega), Nat.add_comm]
    have hterminal : flat.isTerminal ⟨i + 2⟩ = true :=
      decide_eq_true (show i + 2 < flat.terminalCount by omega)
    rw [hkind, terminalWord_eq hnodup hi ht, h.terminal _ hterminal]
  · simp at hnone

/-- Symbols have what the texts, names and patterns mean that they stand for. -/
theorem means (hd : d.validate = .ok g) : f.full.Means J (g.meaning rules) := by
  have hdistinct := distinct_terminals hd
  constructor
  case text =>
    intro x k hk
    rw [f.literals_eq] at hk
    exact h.key f hdistinct.texts hk
  case pattern =>
    intro x k hk
    rw [f.patterns_eq] at hk
    exact h.key f hdistinct.patterns hk
  case symbol =>
    intro x k hk
    rw [f.names_eq] at hk
    rcases of_getElem?_number hk with ⟨i, hi, rfl⟩ | ⟨hnot, hk⟩
    · rw [List.getElem?_map, Option.map_eq_some_iff] at hi
      obtain ⟨rule, hi, hname⟩ := hi
      obtain rfl := Option.some.inj hname
      obtain ⟨hlt, -⟩ := List.getElem?_eq_some_iff.1 hi
      have hsize := f.size_symbols
      have hsymbols := f.symbols_le
      have hkind : Kind.ofNat (flat.terminalCount + i) = ⟨flat.terminalCount + i⟩ :=
        f.ofNat_eq (by rw [f.symbols_eq]; omega)
      have hmem : rule.1 ∈ g.draft.rules.map (·.1) := List.mem_map_of_mem (List.mem_of_getElem? hi)
      rw [hkind, h.rule i rule hi]
      simp only [meaning, if_pos hmem]
    · have hrule : x ∉ g.draft.rules.map (·.1) := fun hmem => hnot (by simpa using hmem)
      rw [h.key f hdistinct.names hk]
      simp only [meaning, if_neg hrule]

end Interprets

namespace Flattening

variable (f : Flattening g flat)

private theorem length_rules : f.rules.toList.length = g.draft.rules.length := by
  rw [f.rules_eq, List.length_map, List.length_range']

/-- What the declared rule at `i` is. -/
theorem declared {i : Nat} {rule : String × Expr} (hi : g.draft.rules[i]? = some rule) :
    f.rules.toList[i]? = some ⟨flat.terminalCount + i⟩ := by
  obtain ⟨hlt, -⟩ := List.getElem?_eq_some_iff.1 hi
  have hsize := f.size_symbols
  have hsymbols := f.symbols_le
  have hkind : Kind.ofNat (flat.terminalCount + i) = ⟨flat.terminalCount + i⟩ :=
    f.ofNat_eq (by rw [f.symbols_eq]; omega)
  rw [f.rules_eq, List.getElem?_map, List.getElem?_range' hlt, Option.map_some, Nat.one_mul, hkind]

private theorem of_mem_zip {pair : (String × Expr) × Kind}
    (h : pair ∈ g.draft.rules.zip f.rules.toList) :
    ∃ i, g.draft.rules[i]? = some pair.1 ∧ pair.2 = ⟨flat.terminalCount + i⟩ := by
  obtain ⟨i, hi⟩ := List.getElem?_of_mem h
  obtain ⟨hrule, hkind⟩ := List.getElem?_zip_eq_some.1 hi
  refine ⟨i, hrule, ?_⟩
  rw [f.declared hrule] at hkind
  exact (Option.some.inj hkind).symm

end Flattening

/-- The bodies of all repetitions, in the order in which their hidden rules are made. -/
def loops (g : Grammar) : List Expr := g.draft.rules.flatMap fun rule => rule.2.loops

namespace Interprets

variable (f : Flattening g flat) (h : Interprets g flat rules J)
include f h

/-- The productions say that start symbol and rules have some words at least. -/
theorem defines (hd : d.validate = .ok g) :
    Defines J (g.loops.map (·.language (g.meaning rules)))
      ((g.draft.rules.zip f.rules.toList).map fun rule =>
        (rule.1.2.language (g.meaning rules), rule.2))
      { symbols := f.symbols.push ⟨acceptName, false, false, true⟩
        productions :=
  #[{ lhs := .ofNat f.symbols.size, steps := [{ symbol := flat.start }] }] } f.state := by
  have hloops : g.loops.map (·.language (g.meaning rules)) =
      (g.draft.rules.zip f.rules.toList).flatMap fun rule =>
      rule.1.2.loops.map (·.language (g.meaning rules)) := by
    have hfst : (g.draft.rules.zip f.rules.toList).map (·.1) = g.draft.rules :=
      List.map_fst_zip (by rw [f.length_rules])
    conv_lhs => rw [loops, List.map_flatMap, ← hfst, List.flatMap_map]
  rw [hloops]
  exact defines_lowerRules (h.means f hd)
    (fun rule hrule => f.covers (List.of_mem_zip hrule).1) f.lowered

/-- Bounds for the kinds of rules are bounds for the rules. -/
theorem bounds_iff :
    (∀ b ∈ (g.draft.rules.zip f.rules.toList).map fun rule =>
        (rule.1.2.language (g.meaning rules), rule.2), b.1 ≤ J b.2) ↔
          ∀ rule ∈ g.draft.rules, rule.2.language (g.meaning rules) ≤ rules rule.1 := by
  rw [List.forall_mem_map]
  constructor
  · intro hbounds rule hrule
    obtain ⟨i, hi⟩ := List.getElem?_of_mem hrule
    rw [← h.rule i rule hi]
    exact hbounds (rule, ⟨flat.terminalCount + i⟩)
      (List.mem_of_getElem? (List.getElem?_zip_eq_some.2 ⟨hi, f.declared hi⟩))
  · intro hrules pair hpair
    obtain ⟨i, hi, hkind⟩ := f.of_mem_zip hpair
    rw [hkind, h.rule i pair.1 hi]
    exact hrules pair.1 (List.mem_of_getElem? hi)

/-- If productions are obeyed, rules have all words of their bodies. -/
theorem closed (hd : d.validate = .ok g) (hobeys : ∀ p ∈ flat.productions, Obeys J p) :
    ∀ rule ∈ g.draft.rules, rule.2.language (g.meaning rules) ≤ rules rule.1 := by
  rw [f.productions_eq] at hobeys
  exact (h.bounds_iff f).1 ((h.defines f hd).complete hobeys).2

/-- If rules have all words of their bodies, productions are obeyed. -/
theorem obeys (hd : d.validate = .ok g)
    (hstart : J flat.start ≤ J ⟨flat.terminalCount + g.draft.rules.length⟩)
    (hloops : ∀ i body, g.loops[i]? = some body →
      J ⟨flat.terminalCount + g.draft.rules.length + 1 + i⟩ = body.language (g.meaning rules) *
      (body.language (g.meaning rules))∗)
    (hclosed : ∀ rule ∈ g.draft.rules, rule.2.language (g.meaning rules) ≤ rules rule.1) :
    ∀ p ∈ flat.productions, Obeys J p := by
  have hdefines := h.defines f hd
  have hpush : (f.symbols.push ⟨acceptName, false, false, true⟩).size = flat.terminalCount +
      g.draft.rules.length + 1 := by
    rw [Array.size_push, f.size_symbols]
  have hsize := hdefines.size
  rw [hpush, ← f.symbols_eq, List.length_map] at hsize
  rw [f.productions_eq]
  refine hdefines.sound (fun i body hi => ?_) ((h.bounds_iff f).2 hclosed) fun p hp => ?_
  · rw [List.getElem?_map, Option.map_eq_some_iff] at hi
    obtain ⟨e, hi, rfl⟩ := hi
    obtain ⟨hlt, -⟩ := List.getElem?_eq_some_iff.1 hi
    rw [hpush, f.ofNat_eq (by omega)]
    exact hloops i e hi
  · obtain rfl : p = { lhs := .ofNat f.symbols.size, steps := [{ symbol := flat.start }] } := by
      simpa using hp
    rw [Obeys, List.map_singleton, List.prod_singleton, f.size_symbols, f.ofNat_eq (by omega)]
    exact hstart

end Interprets

/-! ## Derived words -/

/-- What the symbols of rules derive, by the names of the rules. -/
def derived (g : Grammar) (flat : Flat) (name : String) : FormalLanguage Kind :=
  {w | ∃ (i : Nat) (rule : String × Expr), g.draft.rules[i]? = some rule ∧ rule.1 = name ∧
    w ∈ flat.language ⟨flat.terminalCount + i⟩}

/-- A rule is found by its name. -/
theorem eq_of_name (hd : d.validate = .ok g) {i j : Nat} {rule other : String × Expr}
    (hi : g.draft.rules[i]? = some rule) (hj : g.draft.rules[j]? = some other)
    (hname : other.1 = rule.1) : j = i := by
  have hnodup := (List.nodup_append.1 (Draft.nodup_of_validate hd)).2.1
  obtain ⟨hlt, -⟩ := List.getElem?_eq_some_iff.1 hj
  refine (List.getElem?_inj (by rwa [List.length_map]) hnodup).1 ?_
  rw [List.getElem?_map, List.getElem?_map, hi, hj, Option.map_some, Option.map_some, hname]

private theorem interprets_derived (hd : d.validate = .ok g) (hflat : flat.WellFormed) :
    Interprets g flat (derived g flat) flat.language := by
  constructor
  case terminal =>
    refine fun k hk => Flat.language_terminal (fun p hp => ?_) hk
    obtain ⟨q, hq⟩ := Array.getElem?_of_mem hp
    exact decide_eq_false (Nat.not_lt_of_le (hflat.lhs q p hq).1)
  case rule =>
    intro i rule hi
    ext w
    constructor
    · exact fun hw => ⟨i, rule, hi, rfl, hw⟩
    · rintro ⟨j, other, hj, hname, hw⟩
      rwa [eq_of_name hd hi hj hname] at hw

/-! ## Solutions as languages of symbols -/

/-- The languages of rules, start and repetitions, if the rules have some languages. -/
def nonterminals (g : Grammar) (rules : String → FormalLanguage Kind) :
    List (FormalLanguage Kind) :=
  g.draft.rules.map (fun rule => rules rule.1) ++ rules g.start ::
    g.loops.map fun body => body.language (g.meaning rules) * (body.language (g.meaning rules))∗

/-- The languages of symbols if the rules have some languages. -/
def interpretation (g : Grammar) (flat : Flat) (rules : String → FormalLanguage Kind) (k : Kind) :
    FormalLanguage Kind :=
  if flat.isTerminal k then {[k]} else ((g.nonterminals rules)[k.id - flat.terminalCount]?).getD 0

private theorem interpretation_nonterminal (rules : String → FormalLanguage Kind) {i : Nat}
    {L : FormalLanguage Kind} (h : (g.nonterminals rules)[i]? = some L) :
    g.interpretation flat rules ⟨flat.terminalCount + i⟩ = L := by
  have hk : ¬ flat.isTerminal ⟨flat.terminalCount + i⟩ = true := by simp [Flat.isTerminal]
  rw [interpretation, if_neg hk, Nat.add_sub_cancel_left, h, Option.getD_some]

private theorem interprets_interpretation (rules : String → FormalLanguage Kind) :
    Interprets g flat rules (g.interpretation flat rules) := by
  constructor
  case terminal => exact fun k hk => if_pos hk
  case rule =>
    intro i rule hi
    refine interpretation_nonterminal rules ?_
    obtain ⟨hlt, -⟩ := List.getElem?_eq_some_iff.1 hi
    rw [nonterminals, List.getElem?_append_left (by rwa [List.length_map]), List.getElem?_map,
      hi, Option.map_some]

private theorem obeys_interpretation (f : Flattening g flat) (hd : d.validate = .ok g)
    (hclosed : ∀ rule ∈ g.draft.rules, rule.2.language (g.meaning rules) ≤ rules rule.1) :
    ∀ p ∈ flat.productions, Obeys (g.interpretation flat rules) p := by
  have h : Interprets g flat rules (g.interpretation flat rules) := interprets_interpretation rules
  have hlength : (g.draft.rules.map fun rule => rules rule.1).length = g.draft.rules.length :=
    List.length_map _
  refine h.obeys f hd ?_ (fun i body hi => ?_) hclosed
  · have hstart : g.interpretation flat rules flat.start = rules g.start := by
      have hlookup : f.full.lookup g.start = .ok flat.start := f.lookup
      unfold Scope.lookup at hlookup
      split at hlookup
      · next k hk =>
        rw [← Except.ok.inj hlookup, (h.means f hd).symbol g.start k hk]
        exact if_pos (Draft.valid_of_validate hd).start
      · contradiction
    rw [hstart]
    refine (interpretation_nonterminal rules ?_).ge
    rw [nonterminals, List.getElem?_append_right (by rw [hlength]), hlength, Nat.sub_self,
      List.getElem?_cons_zero]
  · rw [Nat.add_assoc, Nat.add_assoc]
    refine interpretation_nonterminal rules ?_
    rw [nonterminals, List.getElem?_append_right (by rw [hlength]; omega), hlength,
      Nat.add_sub_cancel_left, Nat.add_comm, List.getElem?_cons_succ, List.getElem?_map,
      hi, Option.map_some]

/-- The symbol of a rule derives the words of the rule. -/
theorem language_rule (f : Flattening g flat) (hd : d.validate = .ok g) (hflat : flat.WellFormed)
    {i : Nat} {rule : String × Expr} (hi : g.draft.rules[i]? = some rule) :
    flat.language ⟨flat.terminalCount + i⟩ = g.languages rule.1 := by
  apply le_antisymm
  · have hsolves := (isLeast_languages hd).1
    have hinterprets : Interprets g flat g.languages (g.interpretation flat g.languages) :=
      interprets_interpretation _
    rw [← hinterprets.rule i rule hi]
    refine Flat.language_le (obeys_interpretation f hd fun rule hrule => (hsolves rule hrule).ge)
      (fun x hx => ?_) _
    rw [hinterprets.terminal x hx]
    exact rfl
  · have hinterprets := interprets_derived hd hflat
    rw [hinterprets.rule i rule hi]
    exact languages_le (hinterprets.closed f hd fun p hp => Flat.obeys_language hp) rule.1

/-- Flattening keeps languages: the symbol of each rule derives just the words of its body, where
the languages of the rules are the least ones that fit. Only production 0 is about acceptance, and
neither the end of input nor an error is part of a right-hand side. -/
theorem flatten_language (hd : d.validate = .ok g) (hflat : flatten g = .ok flat) :
    IsLeast {rules | g.Solves rules} g.languages ∧
    (∀ (i : Nat) (rule : String × Expr), g.draft.rules[i]? = some rule →
      ∃ kind, flat.declaredRules[i]? = some kind ∧
      flat.symbols[kind.id]?.map (·.name) = some rule.1 ∧
      flat.language kind = rule.2.language (g.meaning g.languages)) ∧
    (∀ p ∈ flat.productions, (flat.terminalCount ≤ p.lhs.id ∧ p.lhs.id < flat.symbols.size) ∧
      ∀ s ∈ p.steps, s.symbol ≠ .eof ∧ s.symbol ≠ .error) ∧
    ∃ accept, flat.symbols[accept.id]?.map (·.name) = some acceptName ∧
      flat.productions[0]?.map (·.lhs) = some accept ∧
      ∀ q p, flat.productions[q]? = some p → q ≠ 0 →
        p.lhs ≠ accept ∧ ∀ s ∈ p.steps, s.symbol ≠ accept := by
  obtain ⟨f⟩ := flattening_of_flatten hflat
  have hwf := wellFormed_of_flatten (Draft.valid_of_validate hd) hflat
  have hleast := isLeast_languages hd
  refine ⟨hleast, fun i rule hi => ⟨⟨flat.terminalCount + i⟩, ?_, ?_, ?_⟩, fun p hp => ?_, ?_⟩
  · rw [f.declared_eq]
    exact f.declared hi
  · rw [f.symbol_rule hi]
    rfl
  · rw [language_rule f hd hwf hi]
    exact hleast.1 rule (List.mem_of_getElem? hi)
  · obtain ⟨q, hq⟩ := Array.getElem?_of_mem hp
    refine ⟨hwf.lhs q p hq, fun s hs => ?_⟩
    have hproper := (hwf.symbols q p hq s hs).1
    constructor <;> rintro heq <;> rw [heq] at hproper <;> exact absurd hproper (by decide)
  · obtain ⟨accept, hzero, hunused⟩ := hwf.accepting
    have haccept : accept = .ofNat f.symbols.size := by
      rw [f.productions_zero] at hzero
      exact (congrArg Production.lhs (Option.some.inj hzero)).symm
    refine ⟨accept, ?_, by rw [hzero]; rfl,
      fun q p hp hq => ⟨(hunused q p hp).1 hq, (hunused q p hp).2⟩⟩
    rw [haccept, f.accept_id, f.symbol_accept]
    rfl

/-- The start rule of nested brackets stands for nested brackets, which its symbol derives. -/
theorem flatten_language_brackets : Brackets.draft.validate = .ok ⟨Brackets.draft, "s"⟩ ∧
    flatten ⟨Brackets.draft, "s"⟩ = .ok Brackets.flat ∧
    Brackets.flat.language ⟨5⟩ = languages ⟨Brackets.draft, "s"⟩ "s" ∧
    languages ⟨Brackets.draft, "s"⟩ "s" = {w | ∃ depth, w = Brackets.nested depth} := by
  obtain ⟨hleast, hrules, -⟩ := flatten_language Brackets.valid Brackets.flattened
  obtain ⟨kind, hkind, -, hlanguage⟩ := hrules 0 ("s", .symbol "_body") rfl
  obtain rfl : kind = ⟨5⟩ := (Option.some.inj hkind).symm
  have hsolves := hleast.1 ("s", .symbol "_body") List.mem_cons_self
  have hsame := hlanguage.trans hsolves.symm
  exact ⟨Brackets.valid, Brackets.flattened, hsame, hsame.symm.trans Brackets.language_start⟩

end Reparse.Grammar
