import Reparse.Proofs.Languages
import Reparse.Proofs.Parsing

/-! # A grammar of nested brackets

A small grammar in which much comes together: a rule that is hidden and may be empty, recursion
through it, blanks as extras, and states that differ in their lookaheads only. Its words are known:
some opening brackets with as many closing ones behind them. -/
namespace Reparse

namespace Brackets
open Data Grammar Grammar.Lowering Lexer Parse Table

def draft : Draft where
  name := "brackets"
  tokens := [{ name := "blank", pattern := .oneOf ⟨[(32, 32)]⟩ }]
  extras := ["blank"]
  rules := [("s", .symbol "_body"), ("_body", .optional (.symbol "n")),
    ("n", .seq [.text "(", .symbol "_body", .text ")"])]

def step (symbol : Nat) : Step := { symbol := ⟨symbol⟩ }

def flat : Flat where
  name := "brackets"
  version := "0.0.0"
  symbols := builtinSymbols ++ #[⟨"(", true, true, false⟩, ⟨")", true, true, false⟩,
    ⟨"blank", true, true, true⟩, ⟨"s", false, true, true⟩, ⟨"_body", false, false, true⟩,
    ⟨"n", false, true, true⟩, ⟨acceptName, false, false, true⟩]
  terminalCount := 5
  productions := #[{ lhs := ⟨8⟩, steps := [step 5] }, { lhs := ⟨5⟩, steps := [step 6] },
    { lhs := ⟨6⟩, steps := [step 7] }, { lhs := ⟨6⟩, steps := [] },
    { lhs := ⟨7⟩, steps := [step 2, step 6, step 3] }]
  byLhs := #[#[], #[], #[], #[], #[], #[1], #[2, 3], #[4], #[0]]
  start := ⟨5⟩
  fields := #[]
  extras := #[⟨4⟩]
  word := none
  wordPattern := none
  conflictGroups := []
  declaredRules := [⟨5⟩, ⟨6⟩, ⟨7⟩]
  lexical := [{ kind := ⟨2⟩, pattern := .literal "(" }, { kind := ⟨3⟩, pattern := .literal ")" },
    { kind := ⟨4⟩, pattern := .oneOf ⟨[(32, 32)]⟩ }]
  modes := [defaultMode]

/-! ## Its words -/

/-- Nested brackets. -/
def nested (depth : Nat) : List Kind := List.replicate depth ⟨2⟩ ++ List.replicate depth ⟨3⟩

private theorem nested_succ (depth : Nat) :
    nested (depth + 1) = ⟨2⟩ :: (nested depth ++ [⟨3⟩]) := by
  rw [nested, nested, List.replicate_succ, List.replicate_succ', List.cons_append,
    List.append_assoc]

/-- The words of each symbol. -/
def words : Kind → FormalLanguage Kind
  | ⟨7⟩ => {w | ∃ depth, w = nested (depth + 1)}
  | ⟨id⟩ => if id < 5 then {[⟨id⟩]} else {w | ∃ depth, w = nested depth}

private theorem obeys_words : ∀ p ∈ flat.productions, Obeys words p := by
  have hsingle {lhs symbol : Nat} (h : words ⟨symbol⟩ ≤ words ⟨lhs⟩) :
      Obeys words { lhs := ⟨lhs⟩, steps := [step symbol] } := by
    unfold Obeys
    rwa [List.map_singleton, List.prod_singleton]
  have hall : ∀ p ∈ flat.productions.toList, Obeys words p := by
    simp only [flat, List.mem_cons, List.not_mem_nil, or_false, forall_eq_or_imp, forall_eq]
    refine ⟨hsingle le_rfl, hsingle le_rfl, hsingle ?_, ?_, ?_⟩
    · rintro _ ⟨depth, rfl⟩
      exact ⟨depth + 1, rfl⟩
    · rintro _ rfl
      exact ⟨0, rfl⟩
    · simp only [Obeys, step, List.map_cons, List.map_nil, List.prod_cons, List.prod_nil, mul_one]
      intro w hw
      obtain ⟨_, rfl, rest, hrest, rfl⟩ := Language.mem_mul.1 hw
      obtain ⟨_, ⟨depth, rfl⟩, _, rfl, rfl⟩ := Language.mem_mul.1 hrest
      exact ⟨depth, (nested_succ depth).symm⟩
  exact fun p hp => hall p (Array.mem_toList_iff.2 hp)

private theorem terminal_words (x : Kind) (hx : flat.isTerminal x = true) : [x] ∈ words x := by
  obtain ⟨id⟩ := x
  have hlt : id < 5 := of_decide_eq_true hx
  interval_cases id <;> rfl

private theorem isTerminal_of_mem_nested {depth : Nat} {x : Kind} (hx : x ∈ nested depth) :
    flat.isTerminal x = true := by
  rcases List.mem_append.1 hx with hx | hx <;> rw [List.eq_of_mem_replicate hx] <;> rfl

/-- All nested brackets are derived, by as many turns of the recursion. -/
theorem derives_nested (depth : Nat) : Derives flat [⟨6⟩] (nested depth) := by
  induction depth with
  | zero => exact derives_of_production (p := { lhs := ⟨6⟩, steps := [] }) (q := 3) rfl
  | succ depth ih =>
    have hinner : Derives flat [⟨7⟩] [⟨2⟩, ⟨6⟩, ⟨3⟩] :=
      derives_of_production (p := { lhs := ⟨7⟩, steps := [step 2, step 6, step 3] }) (q := 4) rfl
    have houter : Derives flat [⟨6⟩] [⟨7⟩] :=
      derives_of_production (p := { lhs := ⟨6⟩, steps := [step 7] }) (q := 2) rfl
    rw [nested_succ]
    exact (houter.trans hinner).trans (ih.context [⟨2⟩] [⟨3⟩])

/-- The words of the start rule are the nested brackets. -/
theorem language_start : flat.language flat.start = {w | ∃ depth, w = nested depth} := by
  apply le_antisymm
  · exact Flat.language_le obeys_words terminal_words ⟨5⟩
  · rintro _ ⟨depth, rfl⟩
    have hstart : Derives flat [⟨5⟩] [⟨6⟩] :=
      derives_of_production (p := { lhs := ⟨5⟩, steps := [step 6] }) (q := 1) rfl
    exact ⟨hstart.trans (derives_nested depth), fun x hx => isTerminal_of_mem_nested hx⟩

/-! ## What it is compiled to -/

private theorem names_visible : isHiddenName "s" = false ∧ isHiddenName "n" = false ∧
    isHiddenName "blank" = false ∧ isHiddenName "_body" = true := by
  simp only [isHiddenName, String.startsWith_string_eq_false_iff, String.startsWith_string_iff]
  decide

theorem valid : draft.validate = .ok ⟨draft, "s"⟩ := by
  simp [Draft.validate, draft, Draft.checkToken, Draft.checkRuleName, Draft.checkRuleBody, bind,
    Except.bind, pure, Except.pure, names_visible, Expr.parts, Expr.listParts, Expr.symbol?,
    Pattern.matchesEmpty]

def scope : Scope where
  names := (((({} : Std.HashMap String Kind).insert "blank" ⟨4⟩).insert "s" ⟨5⟩).insert "_body"
    ⟨6⟩).insert "n" ⟨7⟩
  literals := (({} : Std.HashMap String Kind).insert "(" ⟨2⟩).insert ")" ⟨3⟩
  start := "s"

theorem lookup_eq : scope.lookup "blank" = .ok ⟨4⟩ ∧ scope.lookup "s" = .ok ⟨5⟩ ∧
    scope.lookup "_body" = .ok ⟨6⟩ ∧ scope.lookup "n" = .ok ⟨7⟩ ∧
    scope.literals["("]? = some ⟨2⟩ ∧ scope.literals[")"]? = some ⟨3⟩ := by
  simp [scope, Scope.lookup, Std.HashMap.getElem_insert]

private theorem lower_s (st : Lowering.State) : lowerRule scope st (("s", .symbol "_body"), ⟨5⟩) =
    .ok { st with
      productions := st.productions.push { lhs := ⟨5⟩, steps := [step 6] }
      rule := ⟨5⟩
      repeats := 0 } := by
  simp [lowerRule, lower, lookup_eq, bind, Except.bind, pure, Except.pure, maxAlternatives,
    State.addAlternatives]
  rw [distinct_of_nodup (by decide) (by simp)]
  rfl

private theorem lower_body (st : Lowering.State) :
    lowerRule scope st (("_body", .optional (.symbol "n")), ⟨6⟩) = .ok { st with
      productions := (st.productions.push { lhs := ⟨6⟩, steps := [step 7] }).push
        { lhs := ⟨6⟩, steps := [] }
      rule := ⟨6⟩
      repeats := 0 } := by
  simp [lowerRule, lower, lookup_eq, bind, Except.bind, pure, Except.pure, maxAlternatives,
    State.addAlternatives]
  rw [distinct_of_nodup (by decide) (by simp)]
  rfl

private theorem lower_n (st : Lowering.State) :
    lowerRule scope st (("n", .seq [.text "(", .symbol "_body", .text ")"]), ⟨7⟩) = .ok { st with
      productions := st.productions.push { lhs := ⟨7⟩, steps := [step 2, step 6, step 3] }
      rule := ⟨7⟩
      repeats := 0 } := by
  simp [lowerRule, lower, lowerSeq, lookup_eq, bind, Except.bind, pure, Except.pure,
    maxAlternatives, State.addAlternatives]
  rw [distinct_of_nodup (by decide) (by simp)]
  rfl

theorem flattened : flatten ⟨draft, "s"⟩ = .ok flat := by
  let parts : List Expr := [.symbol "_body", .optional (.symbol "n"), .symbol "n",
    .seq [.text "(", .symbol "_body", .text ")"], .text "(", .symbol "_body", .text ")"]
  have hparts : (draft.rules.flatMap fun r => r.2.parts) = parts := by
    simp [draft, Expr.parts, Expr.listParts, parts]
  have htexts : parts.filterMap Expr.text? = ["(", ")"] := rfl
  have hpatterns : (parts.filterMap Expr.pattern?).eraseDups = [] := List.eraseDups_nil
  have hfields : sortNames (parts.filterMap Expr.field?) = [] := sortNames_nil
  have hdeclared : (draft.tokens.filter (·.isLiteral)).map (·.name) = [] := rfl
  have hliterals : (["(", ")"].filter fun x =>
      !(Std.HashSet.ofList ([] : List String)).contains x).eraseDups = ["(", ")"] := by
    simp [List.eraseDups, List.eraseDupsBy, List.eraseDupsBy.loop]
  have hliteral : ({ name := "blank", pattern := .oneOf ⟨[(32, 32)]⟩ } : TokenDecl).isLiteral =
      false := rfl
  have hterminals : draft.tokens.foldl (Terminals.addToken draft.modes)
      (["(", ")"].foldl Terminals.addLiteral
        { scope := { start := "s" }, symbols := builtinSymbols }) =
      { scope := { names := ({} : Std.HashMap String Kind).insert "blank" ⟨4⟩
                   literals := scope.literals, start := "s" }
        symbols := builtinSymbols ++ #[⟨"(", true, true, false⟩, ⟨")", true, true, false⟩,
          ⟨"blank", true, true, true⟩]
        lexical := flat.lexical.reverse } := by
    simp only [draft, List.foldl_cons, List.foldl_nil, Terminals.addToken, Terminals.addLiteral,
      hliteral, names_visible]
    rfl
  have hnames : draft.rules.foldl addRuleName
      (⟨({} : Std.HashMap String Kind).insert "blank" ⟨4⟩, scope.literals, {}, {}, "s"⟩,
        builtinSymbols ++ #[⟨"(", true, true, false⟩, ⟨")", true, true, false⟩,
          ⟨"blank", true, true, true⟩], #[]) =
        (scope, flat.symbols.pop, #[⟨5⟩, ⟨6⟩, ⟨7⟩]) := by
    simp only [draft, List.foldl_cons, List.foldl_nil, addRuleName, names_visible]
    rfl
  have hrules : (draft.rules.zip [⟨5⟩, ⟨6⟩, ⟨7⟩]).foldlM (lowerRule scope)
      { symbols := flat.symbols.pop.push ⟨acceptName, false, false, true⟩
        productions := #[{ lhs := .ofNat flat.symbols.pop.size, steps := [{ symbol := ⟨5⟩ }] }] } =
      .ok { symbols := flat.symbols, productions := flat.productions, rule := ⟨7⟩ } := by
    simp only [draft, List.zip_cons_cons, List.zip_nil_right, List.foldlM_cons, List.foldlM_nil,
      lower_s, lower_body, lower_n, bind, Except.bind]
    rfl
  have hscope : (⟨scope.names, scope.literals, scope.patterns, {}, scope.start⟩ : Scope) = scope :=
    rfl
  have hextras : List.mapM scope.lookup draft.extras = .ok [⟨4⟩] := by
    simp only [draft, List.mapM_cons, List.mapM_nil, lookup_eq, bind, Except.bind, pure,
      Except.pure]
  unfold flatten
  simp only [hparts, hdeclared, htexts, hpatterns, hfields, hliterals, List.zipIdx_nil,
    List.foldl_nil, hterminals, hnames]
  simp only [hscope, lookup_eq, bind, Except.bind, State.addSymbol, hrules]
  rw [if_neg (by decide), hextras]
  rfl

def nfa : Nfa := #[{ silent := [5, 3, 1] }, { moves := [(40, 40, 2)] }, { accept := some 0 },
  { moves := [(41, 41, 4)] }, { accept := some 1 }, { moves := [(32, 32, 6)] },
  { accept := some 2 }]

def dfa : Dfa := ⟨#[⟨#[⟨32, 32, 1⟩, ⟨40, 40, 2⟩, ⟨41, 41, 3⟩], none⟩, ⟨#[], some 2⟩, ⟨#[], some 0⟩,
  ⟨#[], some 1⟩]⟩

def lexer : Lexer :=
  ⟨#[⟨defaultMode, dfa⟩], #[⟨⟨2⟩, 0, none⟩, ⟨⟨3⟩, 0, none⟩, ⟨⟨4⟩, 0, none⟩], none⟩

private theorem dfa_eq :
    Dfa.ofRules [(.literal "(", 0), (.literal ")", 1), (.oneOf ⟨[(32, 32)]⟩, 2)]
    flat.lexerSpec.rank = dfa := by
  have hnfa : Nfa.ofRules [(.literal "(", 0), (.literal ")", 1), (.oneOf ⟨[(32, 32)]⟩, 2)] =
      nfa := by
    cbv
  have hstart : nfa.closure [0] = ⟨⟨43⟩, [1, 3, 5, 0]⟩ := by cbv
  have hblank : nfa.closure [6] = ⟨⟨64⟩, [6]⟩ := by cbv
  have hopening : nfa.closure [2] = ⟨⟨4⟩, [2]⟩ := by cbv
  have hclosing : nfa.closure [4] = ⟨⟨16⟩, [4]⟩ := by cbv
  let start : Dfa.Discovery := .start ⟨⟨43⟩, [1, 3, 5, 0]⟩
  let second : Dfa.Discovery :=
    ⟨start.found.push ⟨⟨64⟩, [6]⟩, start.index.insert ⟨64⟩ start.found.size⟩
  let third : Dfa.Discovery :=
    ⟨second.found.push ⟨⟨4⟩, [2]⟩, second.index.insert ⟨4⟩ second.found.size⟩
  let last : Dfa.Discovery :=
    ⟨third.found.push ⟨⟨16⟩, [4]⟩, third.index.insert ⟨16⟩ third.found.size⟩
  have hrow : Dfa.row nfa start ⟨⟨43⟩, [1, 3, 5, 0]⟩ =
      (#[⟨32, 32, 1⟩, ⟨40, 40, 2⟩, ⟨41, 41, 3⟩], last) := by
    let moves : List (UInt8 × UInt8 × Nat) := [(40, 40, 2), (41, 41, 4), (32, 32, 6)]
    have hmoves : ([1, 3, 5, 0].flatMap fun i => (nfa[i]?.map (·.moves)).getD []) = moves := by cbv
    have hbounds : Dfa.boundaries moves = [32, 33, 40, 41, 42] := by decide +kernel
    have hfirst : (moves.filter fun m : UInt8 × UInt8 × Nat =>
        m.1.toNat ≤ 32 ∧ 33 ≤ m.2.1.toNat + 1).map (·.2.2) = [6] := by cbv
    have hnone : (moves.filter fun m : UInt8 × UInt8 × Nat =>
        m.1.toNat ≤ 33 ∧ 40 ≤ m.2.1.toNat + 1).map (·.2.2) = [] := by cbv
    have hsecond : (moves.filter fun m : UInt8 × UInt8 × Nat =>
        m.1.toNat ≤ 40 ∧ 41 ≤ m.2.1.toNat + 1).map (·.2.2) = [2] := by cbv
    have hthird : (moves.filter fun m : UInt8 × UInt8 × Nat =>
        m.1.toNat ≤ 41 ∧ 42 ≤ m.2.1.toNat + 1).map (·.2.2) = [4] := by cbv
    have hnumber : start.number ⟨⟨64⟩, [6]⟩ = (1, second) :=
      Dfa.Discovery.number_of_none (by simp [start, Dfa.Discovery.start])
    have hnumber' : second.number ⟨⟨4⟩, [2]⟩ = (2, third) :=
      Dfa.Discovery.number_of_none (by simp [second, start, Dfa.Discovery.start])
    have hnumber'' : third.number ⟨⟨16⟩, [4]⟩ = (3, last) :=
      Dfa.Discovery.number_of_none (by simp [third, second, start, Dfa.Discovery.start])
    unfold Dfa.row
    simp only [hmoves, hbounds, List.tail_cons, List.zip_cons_cons, List.zip_nil_right,
      List.foldl_cons, List.foldl_nil, hfirst, hnone, hsecond, hthird, hblank, hopening, hclosing,
      hnumber, hnumber', hnumber'']
    rfl
  unfold Dfa.ofRules
  simp only [hnfa, hstart]
  rw [show (1 <<< nfa.size) + 1 = 124 + 5 from rfl, Dfa.explore_of_some rfl hrow,
    Dfa.explore_of_some rfl (Dfa.row_of_no_moves rfl _),
    Dfa.explore_of_some rfl (Dfa.row_of_no_moves rfl _),
    Dfa.explore_of_some rfl (Dfa.row_of_no_moves rfl _), Dfa.explore_of_none rfl]
  cbv

theorem lexed : flat.lexerSpec.build = .ok lexer := by
  have hrules : (flat.lexerSpec.rules.toList.zipIdx.filter (·.1.mode == 0)).map
      (fun p => (p.1.pattern, p.2)) =
        [(.literal "(", 0), (.literal ")", 1), (.oneOf ⟨[(32, 32)]⟩, 2)] := by cbv
  exact Spec.build_of_defaultMode (by cbv) (by cbv) hrules dfa_eq (by cbv) rfl

def first : First where
  first := #[⟨1⟩, ⟨2⟩, ⟨4⟩, ⟨8⟩, ⟨16⟩, ⟨4⟩, ⟨4⟩, ⟨4⟩, ⟨4⟩]
  nullable := #[false, false, false, false, false, true, true, false, true]

theorem first_eq : First.compute flat = first := by decide +kernel

/-- States inside of brackets differ from those outside in their lookaheads only. -/
def states (mode : Table.Mode) : Array Table.State := match mode with
  | .canonical => #[
    ⟨[(⟨0, 0⟩, ⟨1⟩)], #[(⟨2⟩, 1), (⟨5⟩, 2), (⟨6⟩, 3), (⟨7⟩, 4)]⟩,
    ⟨[(⟨4, 1⟩, ⟨1⟩)], #[(⟨2⟩, 5), (⟨6⟩, 6), (⟨7⟩, 7)]⟩,
    ⟨[(⟨0, 1⟩, ⟨1⟩)], #[]⟩,
    ⟨[(⟨1, 1⟩, ⟨1⟩)], #[]⟩,
    ⟨[(⟨2, 1⟩, ⟨1⟩)], #[]⟩,
    ⟨[(⟨4, 1⟩, ⟨8⟩)], #[(⟨2⟩, 5), (⟨6⟩, 8), (⟨7⟩, 7)]⟩,
    ⟨[(⟨4, 2⟩, ⟨1⟩)], #[(⟨3⟩, 9)]⟩,
    ⟨[(⟨2, 1⟩, ⟨8⟩)], #[]⟩,
    ⟨[(⟨4, 2⟩, ⟨8⟩)], #[(⟨3⟩, 10)]⟩,
    ⟨[(⟨4, 3⟩, ⟨1⟩)], #[]⟩,
    ⟨[(⟨4, 3⟩, ⟨8⟩)], #[]⟩]
  | .lalr => #[
    ⟨[(⟨0, 0⟩, ⟨1⟩)], #[(⟨2⟩, 1), (⟨5⟩, 2), (⟨6⟩, 3), (⟨7⟩, 4)]⟩,
    ⟨[(⟨4, 1⟩, ⟨9⟩)], #[(⟨2⟩, 1), (⟨6⟩, 5), (⟨7⟩, 4)]⟩,
    ⟨[(⟨0, 1⟩, ⟨1⟩)], #[]⟩,
    ⟨[(⟨1, 1⟩, ⟨1⟩)], #[]⟩,
    ⟨[(⟨2, 1⟩, ⟨9⟩)], #[]⟩,
    ⟨[(⟨4, 2⟩, ⟨9⟩)], #[(⟨3⟩, 6)]⟩,
    ⟨[(⟨4, 3⟩, ⟨9⟩)], #[]⟩]

def table (mode : Table.Mode) : Table where
  actions := match mode with
    | .canonical => #[#[(⟨0⟩, .reduce 3), (⟨2⟩, .shift 1)], #[(⟨2⟩, .shift 5), (⟨3⟩, .reduce 3)],
      #[(⟨0⟩, .accept)], #[(⟨0⟩, .reduce 1)], #[(⟨0⟩, .reduce 2)],
      #[(⟨2⟩, .shift 5), (⟨3⟩, .reduce 3)], #[(⟨3⟩, .shift 9)], #[(⟨3⟩, .reduce 2)],
      #[(⟨3⟩, .shift 10)], #[(⟨0⟩, .reduce 4)], #[(⟨3⟩, .reduce 4)]]
    | .lalr => #[#[(⟨0⟩, .reduce 3), (⟨2⟩, .shift 1)], #[(⟨2⟩, .shift 1), (⟨3⟩, .reduce 3)],
      #[(⟨0⟩, .accept)], #[(⟨0⟩, .reduce 1)], #[(⟨0⟩, .reduce 2), (⟨3⟩, .reduce 2)],
      #[(⟨3⟩, .shift 6)], #[(⟨0⟩, .reduce 4), (⟨3⟩, .reduce 4)]]
  gotos := match mode with
    | .canonical => #[#[(⟨5⟩, 2), (⟨6⟩, 3), (⟨7⟩, 4)], #[(⟨6⟩, 6), (⟨7⟩, 7)], #[], #[], #[],
      #[(⟨6⟩, 8), (⟨7⟩, 7)], #[], #[], #[], #[], #[]]
    | .lalr => #[#[(⟨5⟩, 2), (⟨6⟩, 3), (⟨7⟩, 4)], #[(⟨6⟩, 5), (⟨7⟩, 4)], #[], #[], #[], #[], #[]]
  productions := #[⟨⟨8⟩, #[none], 0⟩, ⟨⟨5⟩, #[none], 0⟩, ⟨⟨6⟩, #[none], 0⟩, ⟨⟨6⟩, #[], 0⟩,
    ⟨⟨7⟩, #[none, none, none], 0⟩]

theorem automaton_eq (mode : Table.Mode) : automaton flat first mode = states mode := by
  rw [Table.automaton_eq]
  cases mode with
  | canonical => cbv
  | lalr => cbv

theorem built (mode : Table.Mode) : Table.build flat mode = .ok (table mode) := by
  unfold Table.build
  simp only [first_eq, automaton_eq]
  cases mode with
  | canonical => cbv
  | lalr => cbv

end Brackets

/-- Nested brackets with blanks anywhere. -/
def Compilation.brackets (mode : Table.Mode) : Compilation where
  draft := Brackets.draft
  grammar := ⟨Brackets.draft, "s"⟩
  valid := Brackets.valid
  mode
  flat := Brackets.flat
  flattened := Brackets.flattened
  lexer := Brackets.lexer
  lexed := Brackets.lexed
  table := Brackets.table mode
  built := Brackets.built mode

namespace Brackets
open Parse

def parser : Parser := { language := (Compilation.brackets .lalr).language }

def opening : Leaf := { kind := ⟨2⟩, lexedKind := ⟨2⟩, length := 1, lookahead := 1 }
def closing : Leaf := { kind := ⟨3⟩, lexedKind := ⟨3⟩, length := 1, lookahead := 1 }
def blank : Leaf := { kind := ⟨4⟩, lexedKind := ⟨4⟩, length := 1, lookahead := 1 }

def job (leaves : List Leaf) : Job :=
  { language := (Compilation.brackets .lalr).language, config := {},
    stream := (leaves.map (⟨·, none⟩)).toArray }

theorem job_of_tokens {source : Text.Bytes} {leaves : List Leaf}
    (h : (parser.tokens source none []).tokens = (leaves.map (⟨·, none⟩)).toArray) :
    parser.job source none [] = job leaves := by
  unfold Parser.job
  rw [h]
  rfl

end Brackets
end Reparse
