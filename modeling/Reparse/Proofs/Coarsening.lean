import Reparse.Proofs.Determinism
import Reparse.Proofs.Merging

/-! # Tables with merged states -/
namespace Reparse.Table
open Data Grammar Items

/-- The action with another state to shift to. -/
def Action.rename (f : Nat → Nat) : Action → Action
  | .shift state => .shift (f state)
  | .reduce production => .reduce production
  | .accept => .accept

/-- Each state of one table goes with a state of the other that can do the same, and may do more. -/
structure Coarsens (coarse fine : Table) (merge : Nat → Nat) : Prop where
  start : merge 0 = 0
  actions : ∀ state x action, fine.action? state x = some action →
    coarse.action? (merge state) x = some (action.rename merge)
  gotos : ∀ state x next, fine.goto? state x = some next →
    coarse.goto? (merge state) x = some (merge next)
  productions : ∀ q : Nat, coarse.productions[q]? = fine.productions[q]?

variable {g : Flat} {fine coarse : Table} {merge : Nat → Nat} {s t : State} {id : Nat}

private theorem IsQuotient.edge {fine coarse : Array State} (hq : IsQuotient fine coarse merge)
    (hs : fine[id]? = some s) (ht : coarse[merge id]? = some t) {x : Kind} {target : Nat}
    (h : (x, target) ∈ s.transitions) :
    (x, merge target) ∈ t.transitions := by
  rw [hq.transitions id s t hs ht]
  exact Array.mem_map.2 ⟨(x, target), h, rfl⟩

section
variable (hg : g.WellFormed)
  (hq : IsQuotient (automaton g (First.compute g) .canonical)
      (automaton g (First.compute g) .lalr) merge)
include hg hq

/-- A merged state has the items of the states that it is for, with their lookaheads. -/
private theorem IsQuotient.within (hs : (automaton g (First.compute g) .canonical)[id]? = some s)
    (ht : (automaton g (First.compute g) .lalr)[merge id]? = some t) :
    Within s.kernel t.kernel := by
  obtain ⟨t', ht', hcores⟩ := hq.cores id s hs
  obtain rfl := Option.some.inj (ht.symm.trans ht')
  refine within_of_has ((kernel_automaton .lalr ht).proper hg (First.exact_compute hg))
    hcores.symm ?_
  rintro i x ⟨part, hpart, hx⟩
  have hi : i ∈ t.kernel.cores := by
    rw [hcores]
    exact List.mem_map_of_mem (f := (·.1)) hpart
  obtain ⟨entry, hentry, rfl⟩ := List.mem_map.1 hi
  exact ⟨entry.2, hentry, (hq.lookaheads _ t _ _ ht hentry x).2 ⟨id, s, part, hs, rfl, hpart, hx⟩⟩

private theorem IsQuotient.completes (hs : (automaton g (First.compute g) .canonical)[id]? = some s)
    (ht : (automaton g (First.compute g) .lalr)[merge id]? = some t) {q : Nat} {x : Kind}
    (h : Completes g (closure g (First.compute g) s.kernel) q x) :
    Completes g (closure g (First.compute g) t.kernel) q x := by
  have hwithin := hq.within hg hs ht
  have hproper := (kernel_automaton .lalr ht).proper hg (First.exact_compute hg)
  obtain ⟨i, ahead, hi, hproduction, hsteps, hx⟩ := h
  have hahead := (ahead_of_has_closure ⟨ahead, hi, hx⟩).mono hwithin.cores fun _ _ => hwithin.has
  obtain ⟨more, hmore, hx'⟩ := (has_closure hg (First.exact_compute hg) hproper).2 hahead
  exact ⟨i, more, hmore, hproduction, hsteps, hx'⟩

end

/-- A transition is for the symbol after the dot of some item. -/
theorem exists_item_of_edge (hg : g.WellFormed) {mode : Mode}
    (ht : (automaton g (First.compute g) mode)[id]? = some t) {x : Kind} {target : Nat}
    (h : (x, target) ∈ t.transitions) : ∃ i ahead step rest,
      (i, ahead) ∈ closure g (First.compute g) t.kernel ∧
        g.stepsFrom i.production i.dot = step :: rest ∧ step.symbol = x := by
  obtain ⟨hlength, hall⟩ := List.forall₂_iff_get.1 (settled_automaton hg mode ht)
  obtain ⟨n, hn, hget⟩ := List.getElem_of_mem (Array.mem_toList_iff.2 h)
  have hkind := (hall n (hlength ▸ hn) hn).1
  rw [List.get_eq_getElem, List.get_eq_getElem, hget] at hkind
  have hnext :=
    List.getElem_mem (hlength ▸ hn : n <
      (successors g (closure g (First.compute g) t.kernel)).length)
  obtain ⟨entry, hentry⟩ := List.exists_mem_of_ne_nil _ (ne_nil_of_mem_successors hnext)
  obtain ⟨i, step, rest, hi, hsteps, hsymbol, -⟩ := of_mem_successors hnext entry hentry
  exact ⟨i, entry.2, step, rest, hi, hsteps, hsymbol.trans hkind.symm⟩

variable (hg : g.WellFormed) (hfine : Built g .canonical fine) (hcoarse : Built g .lalr coarse)
  (hsingle : SingleCandidates g .lalr)
  (hq : IsQuotient (automaton g (First.compute g) .canonical)
      (automaton g (First.compute g) .lalr) merge)
include hg hfine hcoarse hsingle hq

/-- What a state does at a token, the state that it is merged into does as well. -/
theorem action_of_canonical {x : Kind} {action : Action} (h : fine.action? id x = some action) :
    coarse.action? (merge id) x = some (action.rename merge) := by
  cases action with
  | shift target =>
    obtain ⟨s, hs, hedge, hterminal⟩ := hfine.of_shift h
    obtain ⟨t, ht, -⟩ := hq.cores id s hs
    have hedge := hq.edge hs ht hedge
    obtain ⟨i, ahead, step, rest, hi, hsteps, rfl⟩ := exists_item_of_edge hg ht hedge
    exact hcoarse.shift_of_item hg hsingle ht hi hsteps hterminal hedge
  | reduce q =>
    obtain ⟨hne, s, hs, hcompletes⟩ := hfine.of_reduce h
    obtain ⟨t, ht, -⟩ := hq.cores id s hs
    obtain ⟨i, ahead, hi, rfl, hsteps, hx⟩ := hq.completes hg hs ht hcompletes
    rw [hcoarse.reduce_of_item hsingle ht hi hsteps hx, Conflict.reduceAction, if_neg hne]
    rfl
  | accept =>
    obtain ⟨s, hs, hcompletes⟩ := hfine.of_accept h
    obtain ⟨t, ht, -⟩ := hq.cores id s hs
    obtain ⟨i, ahead, hi, hzero, hsteps, hx⟩ := hq.completes hg hs ht hcompletes
    rw [hcoarse.reduce_of_item hsingle ht hi hsteps hx, Conflict.reduceAction, if_pos hzero]
    rfl

theorem coarsens_of_quotient : Coarsens coarse fine merge where
  start := hq.start
  actions _ _ _ h := action_of_canonical hg hfine hcoarse hsingle hq h
  gotos id x next h := by
    obtain ⟨s, hs, hedge, hnonterminal⟩ := hfine.of_goto h
    obtain ⟨t, ht, -⟩ := hq.cores id s hs
    exact hcoarse.goto_of_transition hg ht (hq.edge hs ht hedge) hnonterminal
  productions q := by rw [hcoarse.productions, hfine.productions]

end Reparse.Table

namespace Reparse
open Grammar

/-! ## A grammar in which merged states differ

A keyword follows the rule `d` only between keywords, but the states inside of `d` are merged. -/

namespace Keyword
open Data Grammar Grammar.Lowering Lexer Parse Table

def draft : Draft where
  name := "keyword"
  tokens := [{ name := "w", pattern := .oneOf ⟨[(106, 107)]⟩ }]
  rules := [("s", .choice [.symbol "d", .seq [.text "k", .symbol "d", .text "k"]]),
    ("d", .seq [.symbol "w", .optional (.symbol "w")])]
  word := some "w"

def step (symbol : Nat) : Step := { symbol := ⟨symbol⟩ }

def flat : Flat where
  name := "keyword"
  version := "0.0.0"
  symbols := builtinSymbols ++
    #[⟨"k", true, true, false⟩, ⟨"w", true, true, true⟩, ⟨"s", false, true, true⟩,
    ⟨"d", false, true, true⟩, ⟨acceptName, false, false, true⟩]
  terminalCount := 4
  productions := #[{ lhs := ⟨6⟩, steps := [step 4] }, { lhs := ⟨4⟩, steps := [step 5] },
    { lhs := ⟨4⟩, steps := [step 2, step 5, step 2] }, { lhs := ⟨5⟩, steps := [step 3, step 3] },
    { lhs := ⟨5⟩, steps := [step 3] }]
  byLhs := #[#[], #[], #[], #[], #[1, 2], #[3, 4], #[0]]
  start := ⟨4⟩
  fields := #[]
  extras := #[]
  word := some ⟨3⟩
  wordPattern := some (.oneOf ⟨[(106, 107)]⟩)
  conflictGroups := []
  declaredRules := [⟨4⟩, ⟨5⟩]
  lexical :=
    [{ kind := ⟨2⟩, pattern := .literal "k" }, { kind := ⟨3⟩, pattern := .oneOf ⟨[(106, 107)]⟩ }]
  modes := [defaultMode]

private theorem not_hidden :
    isHiddenName "s" = false ∧ isHiddenName "d" = false ∧ isHiddenName "w" = false := by
  simp only [isHiddenName, String.startsWith_string_eq_false_iff]
  decide

theorem valid : draft.validate = .ok ⟨draft, "s"⟩ := by
  simp [Draft.validate, draft, Draft.checkToken, Draft.checkRuleName, Draft.checkRuleBody, bind,
    Except.bind, pure, Except.pure, not_hidden, Expr.parts, Expr.listParts, Expr.symbol?,
    Pattern.matchesEmpty]

def scope : Scope where
  names := ((({} : Std.HashMap String Kind).insert "w" ⟨3⟩).insert "s" ⟨4⟩).insert "d" ⟨5⟩
  literals := ({} : Std.HashMap String Kind).insert "k" ⟨2⟩
  start := "s"

theorem lookup_eq :
    scope.lookup "w" = .ok ⟨3⟩ ∧ scope.lookup "s" = .ok ⟨4⟩ ∧ scope.lookup "d" = .ok ⟨5⟩ ∧
    scope.literals["k"]? = some ⟨2⟩ := by
  simp [scope, Scope.lookup, Std.HashMap.getElem_insert]

private theorem lower_s (st : Lowering.State) : lowerRule scope st
    (("s", .choice [.symbol "d", .seq [.text "k", .symbol "d", .text "k"]]), ⟨4⟩) = .ok { st with
      productions := (st.productions.push { lhs := ⟨4⟩, steps := [step 5] }).push
        { lhs := ⟨4⟩, steps := [step 2, step 5, step 2] }
      rule := ⟨4⟩
      repeats := 0 } := by
  simp [lowerRule, lower, lowerSeq, lowerChoice, lookup_eq, bind, Except.bind, pure,
    Except.pure, maxAlternatives, State.addAlternatives]
  rw [distinct_of_nodup (by decide) (by simp)]
  rfl

private theorem lower_d (st : Lowering.State) : lowerRule scope st
    (("d", .seq [.symbol "w", .optional (.symbol "w")]), ⟨5⟩) = .ok { st with
      productions := (st.productions.push { lhs := ⟨5⟩, steps := [step 3, step 3] }).push
        { lhs := ⟨5⟩, steps := [step 3] }
      rule := ⟨5⟩
      repeats := 0 } := by
  simp [lowerRule, lower, lowerSeq, lookup_eq, bind, Except.bind, pure,
    Except.pure, maxAlternatives, State.addAlternatives]
  rw [distinct_of_nodup (by decide) (by simp)]
  rfl

theorem flattened : flatten ⟨draft, "s"⟩ = .ok flat := by
  let parts : List Expr :=
    [.choice [.symbol "d", .seq [.text "k", .symbol "d", .text "k"]], .symbol "d",
      .seq [.text "k", .symbol "d", .text "k"], .text "k", .symbol "d", .text "k",
      .seq [.symbol "w", .optional (.symbol "w")],
    .symbol "w", .optional (.symbol "w"), .symbol "w"]
  have hparts : (draft.rules.flatMap fun r => r.2.parts) = parts := by
    simp [draft, Expr.parts, Expr.listParts, parts]
  have htexts : parts.filterMap Expr.text? = ["k", "k"] := rfl
  have hpatterns : (parts.filterMap Expr.pattern?).eraseDups = [] := List.eraseDups_nil
  have hfields : sortNames (parts.filterMap Expr.field?) = [] := sortNames_nil
  have hdeclared : (draft.tokens.filter (·.isLiteral)).map (·.name) = [] := rfl
  have hliterals : (["k", "k"].filter fun x =>
      !(Std.HashSet.ofList ([] : List String)).contains x).eraseDups = ["k"] := by
    simp [List.eraseDups, List.eraseDupsBy, List.eraseDupsBy.loop]
  have hliteral : ({ name := "w", pattern := .oneOf ⟨[(106, 107)]⟩ } : TokenDecl).isLiteral =
      false := rfl
  have hterminals : draft.tokens.foldl (Terminals.addToken draft.modes)
      (["k"].foldl Terminals.addLiteral { scope := { start := "s" }, symbols := builtinSymbols }) =
      { scope :=
          { names := ({} : Std.HashMap String Kind).insert "w" ⟨3⟩
            literals := scope.literals
            start := "s" }
        symbols := builtinSymbols ++ #[⟨"k", true, true, false⟩, ⟨"w", true, true, true⟩]
        lexical := flat.lexical.reverse } := by
    simp only [draft, List.foldl_cons, List.foldl_nil, Terminals.addToken, Terminals.addLiteral,
      hliteral, not_hidden]
    rfl
  have hnames : draft.rules.foldl addRuleName
      (⟨({} : Std.HashMap String Kind).insert "w" ⟨3⟩, scope.literals, {}, {}, "s"⟩,
      builtinSymbols ++ #[⟨"k", true, true, false⟩, ⟨"w", true, true, true⟩], #[]) =
        (scope, flat.symbols.pop, #[⟨4⟩, ⟨5⟩]) := by
    simp only [draft, List.foldl_cons, List.foldl_nil, addRuleName, not_hidden]
    rfl
  have hrules : (draft.rules.zip [⟨4⟩, ⟨5⟩]).foldlM (lowerRule scope)
      { symbols := flat.symbols.pop.push ⟨acceptName, false, false, true⟩
        productions := #[{ lhs := .ofNat flat.symbols.pop.size, steps := [{ symbol := ⟨4⟩ }] }] } =
      .ok { symbols := flat.symbols, productions := flat.productions, rule := ⟨5⟩ } := by
    simp only [draft, List.zip_cons_cons, List.zip_nil_right, List.foldlM_cons, List.foldlM_nil,
      lower_s, lower_d, bind, Except.bind]
    rfl
  unfold flatten
  simp only [hparts, hdeclared, htexts, hpatterns, hfields, hliterals, List.zipIdx_nil,
    List.foldl_nil, hterminals, hnames]
  have hscope : (⟨scope.names, scope.literals, scope.patterns, {}, scope.start⟩ : Scope) = scope :=
    rfl
  have hword : Option.mapM scope.lookup draft.word = .ok (some ⟨3⟩) := by
    simp only [draft, Option.mapM_some, lookup_eq]
    rfl
  simp only [hscope, lookup_eq, bind, Except.bind, State.addSymbol, hrules]
  rw [if_neg (by decide), show List.mapM scope.lookup draft.extras = .ok [] from rfl, hword]
  rfl

def nfa : Nfa :=
  #[{ silent := [3, 1] }, { moves := [(107, 107, 2)] }, { accept := some 0 },
    { moves := [(106, 107, 4)] },
  { accept := some 1 }]
def dfa : Dfa := ⟨#[⟨#[⟨106, 106, 1⟩, ⟨107, 107, 2⟩], none⟩, ⟨#[], some 1⟩, ⟨#[], some 0⟩]⟩
def wordDfa : Dfa := ⟨#[⟨#[⟨106, 107, 1⟩], none⟩, ⟨#[], some 0⟩]⟩
def lexer : Lexer := ⟨#[⟨defaultMode, dfa⟩], #[⟨⟨2⟩, 0, none⟩, ⟨⟨3⟩, 0, none⟩], some wordDfa⟩

private theorem dfa_eq :
    Dfa.ofRules [(.literal "k", 0), (.oneOf ⟨[(106, 107)]⟩, 1)] flat.lexerSpec.rank = dfa := by
  have hnfa : Nfa.ofRules [(.literal "k", 0), (.oneOf ⟨[(106, 107)]⟩, 1)] = nfa := by cbv
  have hstart : nfa.closure [0] = ⟨⟨11⟩, [1, 3, 0]⟩ := by cbv
  have hword : nfa.closure [4] = ⟨⟨16⟩, [4]⟩ := by cbv
  have hboth : nfa.closure [2, 4] = ⟨⟨20⟩, [4, 2]⟩ := by cbv
  let start : Dfa.Discovery := .start ⟨⟨11⟩, [1, 3, 0]⟩
  have hrow : Dfa.row nfa start ⟨⟨11⟩, [1, 3, 0]⟩ = (#[⟨106, 106, 1⟩, ⟨107, 107, 2⟩],
      ⟨#[⟨⟨11⟩, [1, 3, 0]⟩, ⟨⟨16⟩, [4]⟩, ⟨⟨20⟩, [4, 2]⟩],
        ((({} : Std.HashMap _ Nat).insert ⟨11⟩ 0).insert ⟨16⟩ 1).insert ⟨20⟩ 2⟩) := by
    have hmoves : ([1, 3, 0].flatMap fun i => (nfa[i]?.map (·.moves)).getD []) =
        [(107, 107, 2), (106, 107, 4)] := by cbv
    have hbounds : Dfa.boundaries [(107, 107, 2), (106, 107, 4)] = [106, 107, 108] := rfl
    have hfirst : ([(107, 107, 2), (106, 107, 4)].filter fun m : UInt8 × UInt8 × Nat =>
        m.1.toNat ≤ 106 ∧ 107 ≤ m.2.1.toNat + 1).map (·.2.2) = [4] := by cbv
    have hsecond : ([(107, 107, 2), (106, 107, 4)].filter fun m : UInt8 × UInt8 × Nat =>
        m.1.toNat ≤ 107 ∧ 108 ≤ m.2.1.toNat + 1).map (·.2.2) = [2, 4] := by cbv
    have hnumber := Dfa.Discovery.number_of_none (d := start) (s := ⟨⟨16⟩, [4]⟩)
      (by simp [start, Dfa.Discovery.start])
    have hnumber' := Dfa.Discovery.number_of_none (s := ⟨⟨20⟩, [4, 2]⟩)
      (d := ⟨start.found.push ⟨⟨16⟩, [4]⟩, start.index.insert ⟨16⟩ start.found.size⟩)
      (by simp [start, Dfa.Discovery.start])
    unfold Dfa.row
    simp only [hmoves, hbounds, List.tail_cons, List.zip_cons_cons, List.zip_nil_right,
      List.foldl_cons, List.foldl_nil, hfirst, hsecond, hword, hboth, hnumber, hnumber']
    rfl
  unfold Dfa.ofRules
  simp only [hnfa, hstart]
  rw [show (1 <<< nfa.size) + 1 = 29 + 4 from rfl, Dfa.explore_of_some rfl hrow,
    Dfa.explore_of_some rfl (Dfa.row_of_no_moves rfl _),
    Dfa.explore_of_some rfl (Dfa.row_of_no_moves rfl _), Dfa.explore_of_none rfl]
  cbv

private theorem wordDfa_eq : Dfa.ofRules [(.oneOf ⟨[(106, 107)]⟩, 0)] (fun r => (0, r)) = wordDfa :=
  Dfa.ofRules_range (by cbv) rfl _

def first : First where
  first := #[⟨1⟩, ⟨2⟩, ⟨4⟩, ⟨8⟩, ⟨12⟩, ⟨8⟩, ⟨12⟩]
  nullable := #[false, false, false, false, false, false, false]

theorem first_eq : First.compute flat = first := by decide +kernel

theorem lexed : flat.lexerSpec.build = .ok lexer := by
  have hrules : (flat.lexerSpec.rules.toList.zipIdx.filter (·.1.mode == 0)).map
      (fun p => (p.1.pattern, p.2)) = [(.literal "k", 0), (.oneOf ⟨[(106, 107)]⟩, 1)] := by cbv
  exact Spec.build_of_defaultMode (by cbv) (by cbv) hrules dfa_eq (by cbv)
    (congrArg some wordDfa_eq)

def states (mode : Table.Mode) : Array Table.State := match mode with
  | .canonical => #[
    ⟨[(⟨0, 0⟩, ⟨1⟩)], #[(⟨2⟩, 1), (⟨3⟩, 2), (⟨4⟩, 3), (⟨5⟩, 4)]⟩,
    ⟨[(⟨2, 1⟩, ⟨1⟩)], #[(⟨3⟩, 5), (⟨5⟩, 6)]⟩,
    ⟨[(⟨3, 1⟩, ⟨1⟩), (⟨4, 1⟩, ⟨1⟩)], #[(⟨3⟩, 7)]⟩,
    ⟨[(⟨0, 1⟩, ⟨1⟩)], #[]⟩,
    ⟨[(⟨1, 1⟩, ⟨1⟩)], #[]⟩,
    ⟨[(⟨3, 1⟩, ⟨4⟩), (⟨4, 1⟩, ⟨4⟩)], #[(⟨3⟩, 8)]⟩,
    ⟨[(⟨2, 2⟩, ⟨1⟩)], #[(⟨2⟩, 9)]⟩,
    ⟨[(⟨3, 2⟩, ⟨1⟩)], #[]⟩,
    ⟨[(⟨3, 2⟩, ⟨4⟩)], #[]⟩,
    ⟨[(⟨2, 3⟩, ⟨1⟩)], #[]⟩]
  | .lalr => #[
    ⟨[(⟨0, 0⟩, ⟨1⟩)], #[(⟨2⟩, 1), (⟨3⟩, 2), (⟨4⟩, 3), (⟨5⟩, 4)]⟩,
    ⟨[(⟨2, 1⟩, ⟨1⟩)], #[(⟨3⟩, 2), (⟨5⟩, 5)]⟩,
    ⟨[(⟨3, 1⟩, ⟨5⟩), (⟨4, 1⟩, ⟨5⟩)], #[(⟨3⟩, 6)]⟩,
    ⟨[(⟨0, 1⟩, ⟨1⟩)], #[]⟩,
    ⟨[(⟨1, 1⟩, ⟨1⟩)], #[]⟩,
    ⟨[(⟨2, 2⟩, ⟨1⟩)], #[(⟨2⟩, 7)]⟩,
    ⟨[(⟨3, 2⟩, ⟨5⟩)], #[]⟩,
    ⟨[(⟨2, 3⟩, ⟨1⟩)], #[]⟩]

def table (mode : Table.Mode) : Table where
  actions := match mode with
    | .canonical => #[#[(⟨2⟩, .shift 1), (⟨3⟩, .shift 2)], #[(⟨3⟩, .shift 5)],
      #[(⟨0⟩, .reduce 4), (⟨3⟩, .shift 7)], #[(⟨0⟩, .accept)], #[(⟨0⟩, .reduce 1)],
      #[(⟨2⟩, .reduce 4), (⟨3⟩, .shift 8)], #[(⟨2⟩, .shift 9)], #[(⟨0⟩, .reduce 3)],
      #[(⟨2⟩, .reduce 3)], #[(⟨0⟩, .reduce 2)]]
    | .lalr => #[#[(⟨2⟩, .shift 1), (⟨3⟩, .shift 2)], #[(⟨3⟩, .shift 2)],
      #[(⟨0⟩, .reduce 4), (⟨2⟩, .reduce 4), (⟨3⟩, .shift 6)], #[(⟨0⟩, .accept)],
      #[(⟨0⟩, .reduce 1)], #[(⟨2⟩, .shift 7)], #[(⟨0⟩, .reduce 3), (⟨2⟩, .reduce 3)],
      #[(⟨0⟩, .reduce 2)]]
  gotos := match mode with
    | .canonical => #[#[(⟨4⟩, 3), (⟨5⟩, 4)], #[(⟨5⟩, 6)], #[], #[], #[], #[], #[], #[], #[], #[]]
    | .lalr => #[#[(⟨4⟩, 3), (⟨5⟩, 4)], #[(⟨5⟩, 5)], #[], #[], #[], #[], #[], #[]]
  productions :=
    #[⟨⟨6⟩, #[none], 0⟩, ⟨⟨4⟩, #[none], 0⟩, ⟨⟨4⟩, #[none, none, none], 0⟩, ⟨⟨5⟩, #[none, none], 0⟩,
      ⟨⟨5⟩, #[none], 0⟩]

theorem automaton_eq (mode : Table.Mode) : automaton flat first mode = states mode := by
  rw [Table.automaton_eq]
  cases mode with
  | canonical => cbv
  | lalr => cbv

theorem built (mode : Table.Mode) : Table.build flat mode = .ok (table mode) := by
  unfold Table.build
  simp only [first_eq, automaton_eq]
  cases mode with
  | canonical => cbv
  | lalr => cbv

end Keyword

/-- One or two words, or one or two words between keywords. The keyword is a word as well. -/
def Compilation.keyword (mode : Table.Mode) : Compilation where
  draft := Keyword.draft
  grammar := ⟨Keyword.draft, "s"⟩
  valid := Keyword.valid
  mode
  flat := Keyword.flat
  flattened := Keyword.flattened
  lexer := Keyword.lexer
  lexed := Keyword.lexed
  table := Keyword.table mode
  built := Keyword.built mode

namespace Keyword
open Data Grammar Grammar.Lowering Lexer Parse Table

theorem singleCandidates (mode : Table.Mode) :
    SingleCandidates (Compilation.keyword mode).flat mode := by
  refine singleCandidates_of_states first_eq (automaton_eq mode) ?_
  cases mode with
  | canonical => cbv
  | lalr => cbv

end Keyword
end Reparse
