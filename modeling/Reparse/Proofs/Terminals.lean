import Reparse.Proofs.Flattening

/-! # The terminals of a grammar are numbered in order -/
namespace Reparse.Grammar
open Lexer (Pattern)
open Lowering

/-- What a terminal stands for. -/
inductive Terminal where
  /-- A literal that is no declared token. -/
  | literal (text : String)
  /-- A pattern without a name, with its number among these. -/
  | pattern (p : Pattern) (number : Nat)
  | token (decl : TokenDecl)

namespace Terminal

/-- The literal that is written for it in rules. -/
def text? : Terminal → Option String
  | .literal text => some text
  | .pattern _ _ => none
  | .token decl => if decl.isLiteral then some decl.name else none

def pattern? : Terminal → Option Pattern
  | .pattern p _ => some p
  | _ => none

def name? : Terminal → Option String
  | .token decl => some decl.name
  | _ => none

end Terminal

/-- The rule of the lexer for a terminal. -/
def Terminal.lexical (modes : List String) (kind : Kind) : Terminal → LexicalToken
  | .literal text => { kind, pattern := .literal text }
  | .pattern p _ => { kind, pattern := p }
  | .token decl =>
    { kind, pattern := decl.pattern, priority := decl.priority
      mode := Terminals.modeNumber modes (decl.mode.getD defaultMode)
      nextMode := decl.enter.map (Terminals.modeNumber modes) }

/-- What tables of symbols say about a terminal. -/
def Terminal.symbol : Terminal → SymbolInfo
  | .literal text => ⟨text, true, true, false⟩
  | .pattern _ number => ⟨s!"_token{number + 1}", true, false, false⟩
  | .token decl => ⟨decl.name, true, !isHiddenName decl.name, !decl.isLiteral⟩

/-- The terminals of a grammar: literals that are not declared and patterns without a name, both by
first use, and then the declared tokens. -/
def terminals (g : Grammar) : List Terminal :=
  let parts := g.draft.rules.flatMap fun r => r.2.parts
  let declared := (g.draft.tokens.filter (·.isLiteral)).map (·.name)
  ((parts.filterMap Expr.text?).filter (· ∉ declared)).eraseDups.map .literal ++
    (parts.filterMap Expr.pattern?).eraseDups.zipIdx.map (fun p => .pattern p.1 p.2) ++
      g.draft.tokens.map .token

theorem Terminal.kind_lexical (modes : List String) (kind : Kind) (x : Terminal) :
    (x.lexical modes kind).kind = kind := by
  cases x <;> rfl

/-! ## Numbers of names -/

namespace Lowering

/-- Gives numbers from `n` on to keys, where some numbers go to none. -/
def number {κ : Type} [BEq κ] [Hashable κ] (map : Std.HashMap κ Kind) (n : Nat) :
    List (Option κ) → Std.HashMap κ Kind
  | [] => map
  | none :: rest => number map (n + 1) rest
  | some x :: rest => number (map.insert x (.ofNat n)) (n + 1) rest

/-- A key has a number of its own, or the one that it had before. -/
theorem of_getElem?_number {κ : Type} [BEq κ] [LawfulBEq κ] [Hashable κ] {map : Std.HashMap κ Kind}
    {n : Nat} {keys : List (Option κ)} {x : κ} {k : Kind} (h : (number map n keys)[x]? = some k) :
    (∃ i, keys[i]? = some (some x) ∧ k = .ofNat (n + i)) ∨ some x ∉ keys ∧ map[x]? = some k := by
  induction keys generalizing map n with
  | nil => exact .inr ⟨List.not_mem_nil, h⟩
  | cons key rest ih =>
    have hlater {i : Nat} (hi : rest[i]? = some (some x)) (hk : k = .ofNat (n + 1 + i)) :
        ∃ i, (key :: rest)[i]? = some (some x) ∧ k = .ofNat (n + i) :=
      ⟨i + 1, hi, by rw [hk, Nat.add_right_comm, Nat.add_assoc]⟩
    cases key with
    | none =>
      rcases ih h with ⟨i, hi, hk⟩ | ⟨hnot, hget⟩
      · exact .inl (hlater hi hk)
      · exact .inr ⟨by simpa using hnot, hget⟩
    | some y =>
      rcases ih h with ⟨i, hi, hk⟩ | ⟨hnot, hget⟩
      · exact .inl (hlater hi hk)
      · rw [Std.HashMap.getElem?_insert] at hget
        split at hget
        · next heq =>
          rw [eq_of_beq heq]
          exact .inl ⟨0, rfl, (Option.some.inj hget).symm⟩
        · next hne =>
          refine .inr ⟨?_, hget⟩
          rw [List.mem_cons, not_or]
          refine ⟨fun heq => hne ?_, hnot⟩
          rw [Option.some.inj heq]
          exact BEq.rfl

namespace Terminals

/-- Adds a terminal of any sort. -/
def add (modes : List String) (t : Terminals) : Terminal → Terminals
  | .literal text => t.addLiteral text
  | .pattern p number => t.addPattern (p, number)
  | .token decl => t.addToken modes decl

variable {t : Terminals}

theorem size_add (modes : List String) (t : Terminals) (x : Terminal) :
    (t.add modes x).symbols.size = t.symbols.size + 1 := by
  cases x <;> exact Array.size_push _

private theorem lexical_add (modes : List String) (t : Terminals) (x : Terminal) :
    (t.add modes x).lexical = x.lexical modes (.ofNat t.symbols.size) :: t.lexical := by
  cases x <;> rfl

theorem size_foldl_add (modes : List String) (xs : List Terminal) (t : Terminals) :
    (xs.foldl (add modes) t).symbols.size = t.symbols.size + xs.length := by
  induction xs generalizing t with
  | nil => rfl
  | cons x rest ih =>
    rw [List.foldl_cons, ih, size_add, List.length_cons, Nat.add_right_comm, Nat.add_assoc]

private theorem symbols_foldl_add (modes : List String) (xs : List Terminal) (t : Terminals) :
    (xs.foldl (add modes) t).symbols.toList = t.symbols.toList ++ xs.map Terminal.symbol := by
  induction xs generalizing t with
  | nil => exact (List.append_nil _).symm
  | cons x rest ih =>
    have hpush : (t.add modes x).symbols.toList = t.symbols.toList ++ [x.symbol] := by
      cases x <;> exact Array.toList_push
    rw [List.foldl_cons, ih, hpush, List.map_cons, List.append_assoc, List.singleton_append]

private theorem lexical_foldl_add (modes : List String) (xs : List Terminal) (t : Terminals) :
    (xs.foldl (add modes) t).lexical.reverse =
      t.lexical.reverse ++ (xs.zipIdx t.symbols.size).map fun p =>
        p.1.lexical modes (.ofNat p.2) := by
  induction xs generalizing t with
  | nil => simp
  | cons x rest ih => rw [List.foldl_cons, ih, size_add, lexical_add]; simp

theorem literals_foldl_add (modes : List String) (xs : List Terminal) (t : Terminals) :
    (xs.foldl (add modes) t).scope.literals =
      number t.scope.literals t.symbols.size (xs.map Terminal.text?) := by
  induction xs generalizing t with
  | nil => rfl
  | cons x rest ih =>
    rw [List.foldl_cons, ih, size_add, List.map_cons]
    cases x with
    | literal => rfl
    | pattern => rfl
    | token decl =>
      simp only [add, addToken, Terminal.text?]
      split <;> rfl

theorem names_foldl_add (modes : List String) (xs : List Terminal) (t : Terminals) :
    (xs.foldl (add modes) t).scope.names =
      number t.scope.names t.symbols.size (xs.map Terminal.name?) := by
  induction xs generalizing t with
  | nil => rfl
  | cons x rest ih =>
    rw [List.foldl_cons, ih, size_add, List.map_cons]
    cases x <;> rfl

theorem patterns_foldl_add (modes : List String) (xs : List Terminal) (t : Terminals) :
    (xs.foldl (add modes) t).scope.patterns =
      number t.scope.patterns t.symbols.size (xs.map Terminal.pattern?) := by
  induction xs generalizing t with
  | nil => rfl
  | cons x rest ih =>
    rw [List.foldl_cons, ih, size_add, List.map_cons]
    cases x <;> rfl

end Terminals

/-- Rules have the numbers behind the terminals. -/
theorem foldl_addRuleName (rules : List (String × Expr)) (scope : Scope)
    (symbols : Array SymbolInfo) (kinds : Array Kind) :
    (rules.foldl addRuleName (scope, symbols, kinds)).1.names =
        number scope.names symbols.size (rules.map fun rule => some rule.1) ∧
      (rules.foldl addRuleName (scope, symbols, kinds)).2.1.toList =
        symbols.toList ++ rules.map (fun rule => ⟨rule.1, false, !isHiddenName rule.1, true⟩) ∧
      (rules.foldl addRuleName (scope, symbols, kinds)).2.2.toList =
        kinds.toList ++ (List.range' symbols.size rules.length).map Kind.ofNat := by
  induction rules generalizing scope symbols kinds with
  | nil => simp [number]
  | cons rule rest ih =>
    obtain ⟨hnames, hsymbols, hkinds⟩ :=
      ih { scope with names := scope.names.insert rule.1 (.ofNat symbols.size) }
      (symbols.push ⟨rule.1, false, !isHiddenName rule.1, true⟩) (kinds.push (.ofNat symbols.size))
    rw [Array.size_push] at hnames hkinds
    refine ⟨hnames, ?_, ?_⟩
    · rw [List.foldl_cons]
      exact hsymbols.trans (by simp)
    · rw [List.foldl_cons]
      exact hkinds.trans (by simp [List.range'_succ])

end Lowering

theorem terminalsOf_eq (g : Grammar) : terminalsOf g =
    g.terminals.foldl (Terminals.add g.draft.modes)
      { scope := { start := g.start }, symbols := builtinSymbols } := by
  have hundeclared (declared texts : List String) :
      texts.filter (fun x => !(Std.HashSet.ofList declared).contains x) =
        texts.filter (· ∉ declared) :=
    List.filter_congr fun x _ => by simp
  unfold terminalsOf terminals
  simp only [List.foldl_append, List.foldl_map, hundeclared]
  rfl

namespace Flattening

variable {g : Grammar} {flat : Flat}

theorem terminalCount_eq (f : Flattening g flat) : flat.terminalCount = 2 + g.terminals.length := by
  rw [f.terminals_eq, terminalsOf_eq, Terminals.size_foldl_add]
  rfl

/-- Each terminal has its rule in the lexer, with its number. -/
theorem lexical_eq_terminals (f : Flattening g flat) :
    flat.lexical = (g.terminals.zipIdx 2).map fun p => p.1.lexical g.draft.modes (.ofNat p.2) := by
  rw [f.lexical_eq, terminalsOf_eq, Terminals.lexical_foldl_add]
  rfl

/-- The numbers of terminals are small enough to be told apart. -/
theorem terminalCount_le (f : Flattening g flat) : flat.terminalCount ≤ maxId := by
  have hle := f.terminals_le
  have hlt := f.symbols_le
  have hmax := f.size
  rw [f.terminals_eq]
  omega

/-- The numbers of symbols are small enough to be told apart. -/
theorem ofNat_eq (f : Flattening g flat) {n : Nat} (h : n < flat.symbols.size) :
    Kind.ofNat n = ⟨n⟩ := by
  rw [f.symbols_eq] at h
  have hsize := f.size
  rw [Kind.ofNat, Nat.min_eq_left (by omega)]

/-- Names stand for tokens and, from there on, for rules. -/
theorem names_eq (f : Flattening g flat) : f.full.names =
    number (number {} 2 (g.terminals.map Terminal.name?)) flat.terminalCount
      (g.draft.rules.map fun rule => some rule.1) := by
  have hnames :=
    (foldl_addRuleName g.draft.rules (terminalsOf g).scope (terminalsOf g).symbols #[]).1
  rw [f.folded, ← f.terminals_eq, terminalsOf_eq, Terminals.names_foldl_add] at hnames
  exact hnames

theorem literals_eq (f : Flattening g flat) :
    f.full.literals = number {} 2 (g.terminals.map Terminal.text?) := by
  have hliterals : f.full.literals = (terminalsOf g).scope.literals := f.named.literals
  rw [hliterals, terminalsOf_eq, Terminals.literals_foldl_add]
  rfl

theorem patterns_eq (f : Flattening g flat) :
    f.full.patterns = number {} 2 (g.terminals.map Terminal.pattern?) := by
  have hpatterns : f.full.patterns = (terminalsOf g).scope.patterns := f.named.patterns
  rw [hpatterns, terminalsOf_eq, Terminals.patterns_foldl_add]
  rfl

theorem symbols_toList (f : Flattening g flat) :
    f.symbols.toList = (terminalsOf g).symbols.toList ++
      g.draft.rules.map (fun rule => ⟨rule.1, false, !isHiddenName rule.1, true⟩) := by
  have hsymbols :=
    (foldl_addRuleName g.draft.rules (terminalsOf g).scope (terminalsOf g).symbols #[]).2.1
  rw [f.folded] at hsymbols
  exact hsymbols

theorem size_symbols (f : Flattening g flat) :
    f.symbols.size = flat.terminalCount + g.draft.rules.length := by
  rw [← Array.length_toList, f.symbols_toList, List.length_append, List.length_map,
    Array.length_toList, f.terminals_eq]

/-- The error symbol heads every table of symbols, behind the end of input. -/
theorem symbol_error (f : Flattening g flat) :
    flat.symbols[Kind.error.id]? = some ⟨"ERROR", true, true, true⟩ := by
  have hkeeps (t : Terminals) (x : Terminal)
      (h : t.symbols.toList[1]? = some ⟨"ERROR", true, true, true⟩) :
      (t.add g.draft.modes x).symbols.toList[1]? = some ⟨"ERROR", true, true, true⟩ := by
    have hpush (info : SymbolInfo) : (t.symbols.push info).toList[1]? =
        some ⟨"ERROR", true, true, true⟩ := by
      rw [Array.toList_push, List.getElem?_append_left (List.getElem?_eq_some_iff.1 h).1, h]
    cases x <;> exact hpush _
  have hterminals : (terminalsOf g).symbols.toList[1]? = some ⟨"ERROR", true, true, true⟩ := by
    rw [terminalsOf_eq]
    exact foldl_keeps hkeeps g.terminals rfl
  have hlt : 1 < (terminalsOf g).symbols.size := (sound_terminalsOf g).size
  change flat.symbols[1]? = _
  rw [f.getElem?_symbols (Nat.lt_of_lt_of_le hlt f.terminals_le), ← Array.getElem?_toList,
    f.symbols_toList, List.getElem?_append_left hlt]
  exact hterminals

theorem symbol_terminal (f : Flattening g flat) {i : Nat} {t : Terminal}
    (hi : g.terminals[i]? = some t) :
    flat.symbols[i + 2]? = some t.symbol := by
  have hsymbols := Terminals.symbols_foldl_add g.draft.modes g.terminals
    { scope := { start := g.start }, symbols := builtinSymbols }
  have hbuiltin : builtinSymbols.toList.length = 2 := rfl
  rw [← terminalsOf_eq] at hsymbols
  have hlt : i + 2 < (terminalsOf g).symbols.toList.length := by
    rw [hsymbols, List.length_append, hbuiltin, List.length_map, Nat.add_comm]
    exact Nat.add_lt_add_left (List.getElem?_eq_some_iff.1 hi).1 2
  rw [f.getElem?_symbols (Nat.lt_of_lt_of_le hlt f.terminals_le), ← Array.getElem?_toList,
    f.symbols_toList, List.getElem?_append_left hlt, hsymbols,
    List.getElem?_append_right (Nat.le_add_left 2 i), hbuiltin, Nat.add_sub_cancel,
    List.getElem?_map, hi, Option.map_some]

theorem symbol_rule (f : Flattening g flat) {i : Nat} {rule : String × Expr}
    (hi : g.draft.rules[i]? = some rule) :
    flat.symbols[flat.terminalCount + i]? = some ⟨rule.1, false, !isHiddenName rule.1, true⟩ := by
  obtain ⟨hlt, -⟩ := List.getElem?_eq_some_iff.1 hi
  have hlength : (terminalsOf g).symbols.toList.length = flat.terminalCount := by
    rw [Array.length_toList, f.terminals_eq]
  rw [f.getElem?_symbols (by rw [f.size_symbols]; omega), ← Array.getElem?_toList, f.symbols_toList,
    List.getElem?_append_right (by omega), hlength, Nat.add_sub_cancel_left, List.getElem?_map,
    hi, Option.map_some]

/-- Rules have the numbers behind the terminals. -/
theorem rules_eq (f : Flattening g flat) :
    f.rules.toList = (List.range' flat.terminalCount g.draft.rules.length).map Kind.ofNat := by
  have hkinds :=
    (foldl_addRuleName g.draft.rules (terminalsOf g).scope (terminalsOf g).symbols #[]).2.2
  rw [f.folded, ← f.terminals_eq] at hkinds
  exact hkinds

/-- No two terminals have one kind. -/
theorem nodup_kinds (f : Flattening g flat) : (flat.lexical.map (·.kind)).Nodup := by
  have hcount := f.terminalCount_le
  rw [f.terminalCount_eq] at hcount
  have hkinds : flat.lexical.map (·.kind) = (List.range' 2 g.terminals.length).map Kind.ofNat := by
    rw [f.lexical_eq_terminals, List.map_map, ← List.zipIdx_map_snd 2 g.terminals, List.map_map]
    exact List.map_congr_left fun p _ => Terminal.kind_lexical _ _ p.1
  rw [hkinds, List.Nodup, List.pairwise_map]
  have hnodup : (List.range' 2 g.terminals.length).Nodup := List.nodup_range'
  refine List.Pairwise.imp_of_mem (fun hi hj hne heq => hne ?_) hnodup
  rw [List.mem_range'_1] at hi hj
  have hid := congrArg Kind.id heq
  simp only [Kind.ofNat] at hid
  omega

end Flattening

/-! ## Keys of terminals -/

namespace Terminal

/-- Terminals in the order of their numbers. -/
def inOrder (literals : List String) (patterns : List (Pattern × Nat)) (tokens : List TokenDecl) :
    List Terminal :=
  literals.map literal ++ patterns.map (fun p => pattern p.1 p.2) ++ tokens.map token

section
variable (literals : List String) (patterns : List (Pattern × Nat)) (tokens : List TokenDecl)

private theorem filterMap_text : (inOrder literals patterns tokens).filterMap text? =
    literals ++ (tokens.filter (·.isLiteral)).map (·.name) := by
  have hliterals : (literals.map literal).filterMap text? = literals := by
    simp [List.filterMap_map, Function.comp_def, text?]
  have hpatterns : (patterns.map fun p => pattern p.1 p.2).filterMap text? = [] := by
    simp [List.filterMap_eq_nil_iff, text?]
  have htokens : (tokens.map token).filterMap text? =
      (tokens.filter (·.isLiteral)).map (·.name) := by
    induction tokens with
    | nil => rfl
    | cons t rest ih => by_cases h : t.isLiteral = true <;> simp [text?, h, ih]
  rw [inOrder, List.filterMap_append, List.filterMap_append, hliterals, hpatterns,
    htokens, List.append_nil]

theorem filterMap_name :
    (inOrder literals patterns tokens).filterMap name? = tokens.map (·.name) := by
  have hliterals : (literals.map literal).filterMap name? = [] := by
    simp [List.filterMap_eq_nil_iff, name?]
  have hpatterns : (patterns.map fun p => pattern p.1 p.2).filterMap name? = [] := by
    simp [List.filterMap_eq_nil_iff, name?]
  have htokens : (tokens.map token).filterMap name? = tokens.map (·.name) := by
    simp [List.filterMap_map, Function.comp_def, name?]
  rw [inOrder, List.filterMap_append, List.filterMap_append, hliterals, hpatterns, htokens,
    List.append_nil, List.nil_append]

private theorem filterMap_pattern :
    (inOrder literals patterns tokens).filterMap pattern? = patterns.map (·.1) := by
  have hliterals : (literals.map literal).filterMap pattern? = [] := by
    simp [List.filterMap_eq_nil_iff, pattern?]
  have hpatterns : (patterns.map fun p => pattern p.1 p.2).filterMap pattern? =
      patterns.map (·.1) := by
    simp [List.filterMap_map, Function.comp_def, pattern?]
  have htokens : (tokens.map token).filterMap pattern? = [] := by
    simp [List.filterMap_eq_nil_iff, pattern?]
  rw [inOrder, List.filterMap_append, List.filterMap_append, hliterals, hpatterns, htokens,
    List.append_nil, List.nil_append]

end

/-- No two terminals go by one text, name or pattern. -/
structure Distinct (terminals : List Terminal) : Prop where
  texts : (terminals.filterMap text?).Nodup
  names : (terminals.filterMap name?).Nodup
  patterns : (terminals.filterMap pattern?).Nodup

theorem eq_of_nodup {κ : Type} {key : Terminal → Option κ} {terminals : List Terminal}
    (h : (terminals.filterMap key).Nodup) {i j : Nat} {t u : Terminal} {x : κ}
    (hi : terminals[i]? = some t) (hj : terminals[j]? = some u) (ht : key t = some x)
    (hu : key u = some x) : i = j := by
  rw [List.Nodup, List.pairwise_filterMap, List.pairwise_iff_getElem] at h
  obtain ⟨hi, rfl⟩ := List.getElem?_eq_some_iff.1 hi
  obtain ⟨hj, rfl⟩ := List.getElem?_eq_some_iff.1 hj
  rcases Nat.lt_trichotomy i j with hlt | heq | hlt
  · exact absurd rfl (h i j _ _ hlt x ht x hu)
  · exact heq
  · exact absurd rfl (h j i _ _ hlt x hu x ht)

end Terminal

private theorem nodup_eraseDups {α : Type} [BEq α] [LawfulBEq α] : ∀ xs : List α, xs.eraseDups.Nodup
  | [] => by simp
  | x :: rest => by
    rw [List.eraseDups_cons, List.nodup_cons, List.mem_eraseDups]
    exact ⟨by simp, nodup_eraseDups _⟩
termination_by xs => xs.length
decreasing_by exact Nat.lt_succ_of_le (List.length_filter_le _ rest)

theorem terminals_eq_inOrder (g : Grammar) : ∃ literals patterns,
    g.terminals = Terminal.inOrder literals patterns g.draft.tokens ∧ literals.Nodup ∧
      (patterns.map (·.1)).Nodup ∧
      ∀ x ∈ literals, x ∉ (g.draft.tokens.filter (·.isLiteral)).map (·.name) := by
  refine ⟨_, _, rfl, nodup_eraseDups _, ?_, fun x hx => ?_⟩
  · rw [List.zipIdx_map_fst]
    exact nodup_eraseDups _
  · rw [List.mem_eraseDups, List.mem_filter] at hx
    simpa using hx.2

/-- Literals that are declared are not listed again. -/
theorem distinct_terminals {d : Draft} {g : Grammar} (h : d.validate = .ok g) :
    Terminal.Distinct g.terminals := by
  obtain ⟨literals, patterns, heq, hliterals, hpatterns, hundeclared⟩ := g.terminals_eq_inOrder
  have hnames : (g.draft.tokens.map (·.name)).Nodup :=
    (List.nodup_append.1 (Draft.nodup_of_validate h)).1
  constructor
  case texts =>
    rw [heq, Terminal.filterMap_text, List.nodup_append]
    refine ⟨hliterals, hnames.sublist (List.filter_sublist.map _), fun x hx y hy hxy => ?_⟩
    exact hundeclared x hx (hxy ▸ hy)
  case names => rwa [heq, Terminal.filterMap_name]
  case patterns => rwa [heq, Terminal.filterMap_pattern]

end Reparse.Grammar
