import Reparse.Proofs.Lowering

/-! # Flat grammars are well formed -/
namespace Reparse.Grammar
open Lexer (Pattern)
open Lowering

/-- The symbols and productions of a flat grammar fit together. -/
structure Flat.WellFormed (g : Flat) : Prop where
  terminals : 2 ≤ g.terminalCount
  bounded : g.symbols.size ≤ maxId
  /-- Production 0 accepts the start symbol. -/
  accepting : ∃ accept, g.productions[0]? =
    some { lhs := accept, steps := [{ symbol := g.start }] } ∧ ∀ (q : Nat) (p : Production),
    g.productions[q]? = some p →
      (q ≠ 0 → p.lhs ≠ accept) ∧ ∀ s ∈ p.steps, s.symbol ≠ accept
  lhs : ∀ (q : Nat) (p : Production), g.productions[q]? = some p →
    g.terminalCount ≤ p.lhs.id ∧ p.lhs.id < g.symbols.size
  symbols : ∀ (q : Nat) (p : Production), g.productions[q]? = some p →
    ∀ s ∈ p.steps, 2 ≤ s.symbol.id ∧ s.symbol.id < g.symbols.size
  index : ∀ (k : Kind) (q : Nat), q ∈ g.productionsOf k ↔
    ∃ p, g.productions[q]? = some p ∧ p.lhs = k
  /-- The start rule makes nodes. -/
  start : g.terminalCount ≤ g.start.id ∧ g.symbols[g.start.id]?.any (·.visible) = true
  extras : ∀ k ∈ g.extras, 2 ≤ k.id ∧ k.id < g.terminalCount
  word : ∀ k, g.word = some k → 2 ≤ k.id ∧ k.id < g.terminalCount
  lexical : ∀ t ∈ g.lexical, 2 ≤ t.kind.id ∧ t.kind.id < g.terminalCount

namespace Lowering

/-! ## Terminals -/

/-- The number of a new symbol. -/
theorem ofNat_bounds {n : Nat} (h : 2 ≤ n) : 2 ≤ (Kind.ofNat n).id ∧ (Kind.ofNat n).id < n + 1 := by
  simp only [Kind.ofNat, maxId]
  omega

theorem getElem?_insert_bounds {κ : Type} [BEq κ] [LawfulBEq κ] [Hashable κ]
    {map : Std.HashMap κ Kind} {n : Nat} (h : ∀ (x : κ) k, map[x]? = some k → 2 ≤ k.id ∧ k.id < n)
    (hn : 2 ≤ n) (y : κ) :
    ∀ (x : κ) k, (map.insert y (.ofNat n))[x]? = some k → 2 ≤ k.id ∧ k.id < n + 1 := by
  intro x k hk
  rw [Std.HashMap.getElem?_insert] at hk
  split at hk
  · obtain rfl := Option.some.inj hk
    exact ofNat_bounds hn
  · have := h x k hk
    omega

namespace Terminals

/-- All kinds are those of symbols of the table. -/
structure Sound (t : Terminals) : Prop where
  size : 2 ≤ t.symbols.size
  scope : t.scope.Sound t.symbols.size
  lexical : ∀ x ∈ t.lexical, 2 ≤ x.kind.id ∧ x.kind.id < t.symbols.size

theorem lexical_cons {lexical : List LexicalToken} {n : Nat} (hn : 2 ≤ n)
    (h : ∀ x ∈ lexical, 2 ≤ x.kind.id ∧ x.kind.id < n) {token : LexicalToken}
    (hk : token.kind = .ofNat n) :
    ∀ x ∈ token :: lexical, 2 ≤ x.kind.id ∧ x.kind.id < n + 1 := by
  intro x hx
  rcases List.mem_cons.1 hx with rfl | hx
  · rw [hk]
    exact ofNat_bounds hn
  · have := h x hx
    omega

variable {t : Terminals}

theorem Scope.Sound.mono {scope : Scope} {n m : Nat} (h : scope.Sound n) (hle : n ≤ m) :
    scope.Sound m where
  names x k hk := ⟨(h.names x k hk).1, Nat.lt_of_lt_of_le (h.names x k hk).2 hle⟩
  literals x k hk := ⟨(h.literals x k hk).1, Nat.lt_of_lt_of_le (h.literals x k hk).2 hle⟩
  patterns x k hk := ⟨(h.patterns x k hk).1, Nat.lt_of_lt_of_le (h.patterns x k hk).2 hle⟩

private theorem Sound.addLiteral (h : t.Sound) (literal : String) :
    (t.addLiteral literal).Sound := by
  have hsize : (t.addLiteral literal).symbols.size = t.symbols.size + 1 := by
    simp [Terminals.addLiteral]
  have hmono := Scope.Sound.mono h.scope (Nat.le_succ _)
  refine ⟨by rw [hsize]; exact Nat.le_succ_of_le h.size, ?_, ?_⟩
  · rw [hsize]
    exact ⟨hmono.names, getElem?_insert_bounds h.scope.literals h.size literal, hmono.patterns⟩
  · rw [hsize]
    exact lexical_cons h.size h.lexical rfl

private theorem Sound.addPattern (h : t.Sound) (p : Pattern × Nat) : (t.addPattern p).Sound := by
  have hsize : (t.addPattern p).symbols.size = t.symbols.size + 1 := by simp [Terminals.addPattern]
  have hmono := Scope.Sound.mono h.scope (Nat.le_succ _)
  refine ⟨by rw [hsize]; exact Nat.le_succ_of_le h.size, ?_, ?_⟩
  · rw [hsize]
    exact ⟨hmono.names, hmono.literals, getElem?_insert_bounds h.scope.patterns h.size p.1⟩
  · rw [hsize]
    exact lexical_cons h.size h.lexical rfl

private theorem Sound.addToken (h : t.Sound) (modes : List String) (token : TokenDecl) :
    (t.addToken modes token).Sound := by
  have hsize : (t.addToken modes token).symbols.size = t.symbols.size + 1 := by
    simp [Terminals.addToken]
  have hmono := Scope.Sound.mono h.scope (Nat.le_succ _)
  refine ⟨by rw [hsize]; exact Nat.le_succ_of_le h.size, ?_, ?_⟩
  · rw [hsize]
    refine ⟨getElem?_insert_bounds h.scope.names h.size token.name, ?_, hmono.patterns⟩
    simp only [Terminals.addToken]
    split
    · exact getElem?_insert_bounds h.scope.literals h.size token.name
    · exact hmono.literals
  · rw [hsize]
    exact lexical_cons h.size h.lexical rfl

private theorem mem_literals_addLiteral {x : String} (h : x ∈ t.scope.literals) (literal : String) :
    x ∈ (t.addLiteral literal).scope.literals := Std.HashMap.mem_insert.2 (.inr h)

private theorem mem_literals_addToken {x : String} (h : x ∈ t.scope.literals) (modes : List String)
    (token : TokenDecl) :
    x ∈ (t.addToken modes token).scope.literals := by
  simp only [Terminals.addToken]
  split
  · exact Std.HashMap.mem_insert.2 (.inr h)
  · exact h

private theorem mem_patterns_addPattern {x : Pattern} (h : x ∈ t.scope.patterns)
    (p : Pattern × Nat) :
    x ∈ (t.addPattern p).scope.patterns := Std.HashMap.mem_insert.2 (.inr h)

end Terminals

/-- A fold keeps what each step keeps. -/
theorem foldl_keeps {α β : Type} {P : β → Prop} {f : β → α → β} (keeps : ∀ b x, P b → P (f b x))
    (xs : List α) {b : β} (hb : P b) : P (xs.foldl f b) := by
  induction xs generalizing b with
  | nil => exact hb
  | cons x rest ih => exact ih (keeps b x hb)

/-- What each step keeps and one step brings about holds after a fold. -/
theorem foldl_reaches {α β : Type} {P : β → Prop} {f : β → α → β} (keeps : ∀ b x, P b → P (f b x))
    {xs : List α} {x : α} (hx : x ∈ xs) (makes : ∀ b, P (f b x)) (b : β) : P (xs.foldl f b) := by
  obtain ⟨before, after, rfl⟩ := List.append_of_mem hx
  rw [List.foldl_append, List.foldl_cons]
  exact foldl_keeps keeps after (makes _)

/-- The terminals of a grammar. -/
def terminalsOf (g : Grammar) : Terminals :=
  let parts := g.draft.rules.flatMap fun r => r.2.parts
  let declared : Std.HashSet String := .ofList ((g.draft.tokens.filter (·.isLiteral)).map (·.name))
  let literals := ((parts.filterMap Expr.text?).filter (!declared.contains ·)).eraseDups
  let patterns := (parts.filterMap Expr.pattern?).eraseDups
  let start : Terminals := { scope := { start := g.start }, symbols := builtinSymbols }
  g.draft.tokens.foldl (Terminals.addToken g.draft.modes)
    (patterns.zipIdx.foldl Terminals.addPattern (literals.foldl Terminals.addLiteral start))

theorem sound_terminalsOf (g : Grammar) : (terminalsOf g).Sound := by
  apply foldl_keeps (f := Terminals.addToken g.draft.modes) fun t token h => h.addToken _ token
  apply foldl_keeps (f := Terminals.addPattern) fun t p h => h.addPattern p
  apply foldl_keeps (f := Terminals.addLiteral) fun t x h => h.addLiteral x
  refine ⟨Nat.le_refl 2, ⟨?_, ?_, ?_⟩, ?_⟩
  · intro x k h
    simp at h
  · intro x k h
    simp at h
  · intro x k h
    simp at h
  · intro x h
    contradiction

theorem covers_terminalsOf (g : Grammar) :
    (terminalsOf g).scope.Covers (g.draft.rules.flatMap fun r => r.2.parts) := by
  constructor
  · intro x hx
    have keeps (t : Terminals) (token : TokenDecl) (h : x ∈ t.scope.literals) :
        x ∈ (Terminals.addToken g.draft.modes t token).scope.literals :=
      Terminals.mem_literals_addToken h _ token
    by_cases hdeclared : x ∈ (g.draft.tokens.filter (·.isLiteral)).map (·.name)
    · obtain ⟨token, htoken, rfl⟩ := List.mem_map.1 hdeclared
      obtain ⟨hmem, hliteral⟩ := List.mem_filter.1 htoken
      refine foldl_reaches keeps hmem (fun t => ?_) _
      simp only [Terminals.addToken, hliteral, if_true]
      exact Std.HashMap.mem_insert_self
    · apply foldl_keeps keeps
      apply foldl_keeps (P := fun t : Terminals => x ∈ t.scope.literals)
        (f := Terminals.addPattern) fun t p h => h
      have hlist : x ∈
          (((g.draft.rules.flatMap fun r => r.2.parts).filterMap Expr.text?).filter fun x =>
          !(Std.HashSet.ofList ((g.draft.tokens.filter (·.isLiteral)).map (·.name))).contains
            x).eraseDups := by
        rw [List.mem_eraseDups, List.mem_filter, List.mem_filterMap]
        refine ⟨⟨.text x, hx, rfl⟩, ?_⟩
        simpa using hdeclared
      exact foldl_reaches (P := fun t : Terminals => x ∈ t.scope.literals)
        (f := Terminals.addLiteral) (fun t y h => Terminals.mem_literals_addLiteral h y) hlist
        (fun t => Std.HashMap.mem_insert_self) _
  · intro x hx
    apply foldl_keeps (P := fun t : Terminals => x ∈ t.scope.patterns)
      (f := Terminals.addToken g.draft.modes) fun t token h => h
    have hlist : x ∈
        ((g.draft.rules.flatMap fun r => r.2.parts).filterMap Expr.pattern?).eraseDups := by
      rw [List.mem_eraseDups, List.mem_filterMap]
      exact ⟨.pattern x, hx, rfl⟩
    obtain ⟨i, hi⟩ := List.getElem?_of_mem hlist
    have hzip := List.mk_mem_zipIdx_iff_getElem?.2 hi
    exact foldl_reaches (P := fun t : Terminals => x ∈ t.scope.patterns) (f := Terminals.addPattern)
      (fun t y h => Terminals.mem_patterns_addPattern h y) hzip
      (fun t => Std.HashMap.mem_insert_self) _

/-! ## Rules -/

/-- What naming the rules adds to scope and symbols. -/
structure Named (rules : List (String × Expr)) (scope : Scope) (symbols : Array SymbolInfo)
    (kinds : Array Kind) (r : Scope × Array SymbolInfo × Array Kind) : Prop where
  grown : ∃ more, r.2.1 = symbols ++ more
  kinds : ∀ k ∈ r.2.2, k ∈ kinds ∨ ∃ i, symbols.size ≤ i ∧ i < r.2.1.size ∧ k = .ofNat i
  literals : r.1.literals = scope.literals
  patterns : r.1.patterns = scope.patterns
  others : ∀ name, name ∉ rules.map (·.1) → r.1.names[name]? = scope.names[name]?
  rules : ∀ name ∈ rules.map (·.1), ∃ i, symbols.size ≤ i ∧ i < r.2.1.size ∧
    r.1.names[name]? = some (.ofNat i) ∧ r.2.1[i]? = some ⟨name, false, !isHiddenName name, true⟩

private theorem Named.cons {rule : String × Expr} {rest : List (String × Expr)} {scope : Scope}
    {symbols : Array SymbolInfo} {kinds : Array Kind} {r : Scope × Array SymbolInfo × Array Kind}
    (h : Named rest { scope with names := scope.names.insert rule.1 (.ofNat symbols.size) }
      (symbols.push ⟨rule.1, false, !isHiddenName rule.1, true⟩)
      (kinds.push (.ofNat symbols.size)) r) :
    Named (rule :: rest) scope symbols kinds r := by
  obtain ⟨more, hmore⟩ := h.grown
  have hlt : symbols.size < r.2.1.size := by
    rw [hmore, Array.size_append, Array.size_push]
    omega
  have hpush : (symbols.push ⟨rule.1, false, !isHiddenName rule.1, true⟩).size = symbols.size + 1 :=
    Array.size_push _
  refine ⟨⟨#[_] ++ more, by rw [hmore, ← Array.append_assoc]; rfl⟩, ?_, h.literals,
    h.patterns, ?_, ?_⟩
  · intro k hk
    rcases h.kinds k hk with hk | ⟨i, hle, hi, rfl⟩
    · rcases Array.mem_push.1 hk with hk | rfl
      · exact .inl hk
      · exact .inr ⟨symbols.size, Nat.le_refl _, hlt, rfl⟩
    · exact .inr ⟨i, by omega, hi, rfl⟩
  · intro name hname
    rw [List.map_cons, List.mem_cons, not_or] at hname
    rw [h.others name hname.2, Std.HashMap.getElem?_insert, if_neg (by simpa using Ne.symm hname.1)]
  · intro name hname
    by_cases hrest : name ∈ rest.map (·.1)
    · obtain ⟨i, hle, hi, hget, hsymbol⟩ := h.rules name hrest
      exact ⟨i, by omega, hi, hget, hsymbol⟩
    · obtain rfl : name = rule.1 := by
        rw [List.map_cons, List.mem_cons] at hname
        exact hname.resolve_right hrest
      refine ⟨symbols.size, Nat.le_refl _, hlt, ?_, ?_⟩
      · rw [h.others _ hrest]
        exact Std.HashMap.getElem?_insert_self
      · rw [hmore, Array.getElem?_append_left (by omega), Array.getElem?_push_size]

theorem named_foldl (rules : List (String × Expr)) (scope : Scope) (symbols : Array SymbolInfo)
    (kinds : Array Kind) :
    Named rules scope symbols kinds (rules.foldl addRuleName (scope, symbols, kinds)) := by
  induction rules generalizing scope symbols kinds with
  | nil => exact ⟨⟨#[], by simp⟩, fun k hk => .inl hk, rfl, rfl, fun _ _ => rfl, by simp⟩
  | cons rule rest ih => exact (ih _ _ _).cons

theorem sound_names {rules : List (String × Expr)} {scope : Scope} {symbols : Array SymbolInfo}
    {kinds : Array Kind} {r : Scope × Array SymbolInfo × Array Kind}
    (h : Named rules scope symbols kinds r) (hscope : scope.Sound symbols.size)
    (hsize : 2 ≤ symbols.size) : r.1.Sound r.2.1.size := by
  obtain ⟨more, hmore⟩ := h.grown
  have hle : symbols.size ≤ r.2.1.size := by
    rw [hmore, Array.size_append]
    omega
  have hmono := Terminals.Scope.Sound.mono hscope hle
  refine ⟨?_, ?_, ?_⟩
  · intro name k hk
    by_cases hname : name ∈ rules.map (·.1)
    · obtain ⟨i, hi, hlt, hget, -⟩ := h.rules name hname
      obtain rfl : Kind.ofNat i = k := by
        rw [hget] at hk
        exact Option.some.inj hk
      simp only [Kind.ofNat, maxId]
      omega
    · rw [h.others name hname] at hk
      exact hmono.names name k hk
  · rw [h.literals]
    exact hmono.literals
  · rw [h.patterns]
    exact hmono.patterns

/-! ## Productions -/

/-- Lowering one rule adds its productions. -/
theorem lowers_lowerRule {scope : Scope} {tc a : Nat} {st st' : State}
    {rule : (String × Expr) × Kind} (hscope : scope.Sound a) (htc : tc ≤ a) (ha : 2 ≤ a)
    (hcovers : scope.Covers rule.1.2.parts) (hkind : a ≤ maxId → tc ≤ rule.2.id ∧ rule.2.id < a)
    (h : lowerRule scope st rule = .ok st') : Lowers tc a st st' [] := by
  obtain ⟨⟨alts, st₁⟩, hlower, h⟩ := bind_eq_ok.1 h
  simp only at h
  split at h
  · contradiction
  · obtain rfl := Except.ok.inj h
    have hrule : Lowers tc a st st₁ alts := by
      have h' := lowers_lower hscope htc ha rule.1.2 {} _ st₁ alts hcovers hlower
      exact ⟨⟨h'.grown.symbols, h'.grown.productions⟩,
        fun hmax hlt hst => h'.sound hmax hlt ⟨hst.lhs, hst.steps⟩⟩
    refine ⟨hrule.grown.trans (st₁.extends_addAlternatives _ _), fun hmax hlt hst => ?_⟩
    rw [State.symbols_addAlternatives] at hmax
    have hle := hrule.grown.size_le
    obtain ⟨hst₁, halts⟩ := hrule.sound hmax hlt hst
    obtain ⟨hle', hlt'⟩ := hkind (by omega)
    exact ⟨hst₁.addAlternatives ⟨hle', by omega⟩ (by omega) halts, fun alt halt => by contradiction⟩

private theorem lowers_lowerRules {scope : Scope} {tc a : Nat} (hscope : scope.Sound a)
    (htc : tc ≤ a) (ha : 2 ≤ a) {rules : List ((String × Expr) × Kind)} {st st' : State}
    (hcovers : ∀ rule ∈ rules, scope.Covers rule.1.2.parts)
    (hkinds : ∀ rule ∈ rules, a ≤ maxId → tc ≤ rule.2.id ∧ rule.2.id < a)
    (h : rules.foldlM (lowerRule scope) st = .ok st') :
    Lowers tc a st st' [] := by
  induction rules generalizing st with
  | nil =>
    obtain rfl : st = st' := Except.ok.inj h
    exact ⟨.refl st, fun _ _ hst => ⟨hst, fun alt halt => by contradiction⟩⟩
  | cons rule rest ih =>
    rw [List.foldlM_cons] at h
    obtain ⟨st₁, hfirst, h⟩ := bind_eq_ok.1 h
    have hrule :=
      lowers_lowerRule hscope htc ha (hcovers rule (by simp)) (hkinds rule (by simp)) hfirst
    exact hrule.trans
      (ih (fun r hr => hcovers r (by simp [hr])) (fun r hr => hkinds r (by simp [hr])) h)
      fun _ _ hrest => hrest

private theorem getElem?_foldl_index (pairs : List (Production × Nat)) (index : Array (Array Nat))
    (k : Nat) :
    (pairs.foldl (fun index (p, i) => index.modify p.lhs.id (·.push i)) index)[k]? =
      index[k]?.map fun qs => qs ++
        ((pairs.filter fun x => x.1.lhs.id == k).map (·.2)).toArray := by
  induction pairs generalizing index with
  | nil => simp
  | cons pair rest ih =>
    rw [List.foldl_cons, ih, Array.getElem?_modify]
    by_cases hk : pair.1.lhs.id = k
    · cases index[k]? with
      | none => simp [hk]
      | some qs => simp [hk]
    · simp [hk]

/-- The index lists the productions of each symbol. -/
theorem mem_indexByLhs {count : Nat} {productions : Array Production}
    (hlhs : ∀ (q : Nat) (p : Production), productions[q]? = some p → p.lhs.id < count) (k : Kind)
    (q : Nat) :
    q ∈ ((indexByLhs count productions)[k.id]?.getD #[]) ↔
      ∃ p, productions[q]? = some p ∧ p.lhs = k := by
  have hindex : indexByLhs count productions = productions.toList.zipIdx.foldl
      (fun index (p, i) => index.modify p.lhs.id (·.push i)) (Array.replicate count #[]) := by
    rw [indexByLhs, ← Array.foldl_toList, Array.toList_zipIdx]
  have hmem : (∃ p, productions[q]? = some p ∧ p.lhs = k) ↔
      q ∈ ((productions.toList.zipIdx.filter fun x => x.1.lhs.id == k.id).map (·.2)) := by
    simp only [List.mem_map, List.mem_filter, Prod.exists, List.mk_mem_zipIdx_iff_getElem?,
      Array.getElem?_toList, beq_iff_eq, exists_eq_right]
    constructor
    · rintro ⟨p, hp, rfl⟩
      exact ⟨p, hp, rfl⟩
    · rintro ⟨p, hp, hid⟩
      exact ⟨p, hp, by cases hk : p.lhs; cases k; simp_all⟩
  rw [hindex, getElem?_foldl_index, hmem]
  by_cases hk : k.id < count
  · simp [hk]
  · have hnone : ∀ x ∈ productions.toList.zipIdx, x.1.lhs.id ≠ k.id := by
      intro x hx heq
      have := hlhs x.2 x.1 (by simpa using List.mk_mem_zipIdx_iff_getElem?.1 hx)
      omega
    have hempty : productions.toList.zipIdx.filter (fun x => x.1.lhs.id == k.id) = [] := by
      rw [List.filter_eq_nil_iff]
      intro x hx
      simpa using hnone x hx
    simp [hk, hempty]

end Lowering

/-- The parts of a flattening that went well. -/
structure Flattening (g : Grammar) (flat : Flat) where
  scope : Scope
  symbols : Array SymbolInfo
  rules : Array Kind
  named : Named g.draft.rules (terminalsOf g).scope (terminalsOf g).symbols #[]
    (scope, symbols, rules)
  fields : Std.HashMap String Field
  lookup : { scope with fields }.lookup g.start = .ok flat.start
  state : State
  lowered : (g.draft.rules.zip rules.toList).foldlM (lowerRule { scope with fields })
    { symbols := symbols.push ⟨acceptName, false, false, true⟩
      productions :=
        #[{ lhs := .ofNat symbols.size, steps := [{ symbol := flat.start }] }] } = .ok state
  size : state.symbols.size ≤ maxId
  symbols_eq : flat.symbols = state.symbols
  terminals_eq : flat.terminalCount = (terminalsOf g).symbols.size
  productions_eq : flat.productions = state.productions
  index_eq : flat.byLhs = indexByLhs state.symbols.size state.productions
  lexical_eq : flat.lexical = (terminalsOf g).lexical.reverse
  extras : g.draft.extras.mapM { scope with fields }.lookup = .ok flat.extras.toList
  word : g.draft.word.mapM { scope with fields }.lookup = .ok flat.word
  folded : g.draft.rules.foldl addRuleName ((terminalsOf g).scope, (terminalsOf g).symbols, #[]) =
    (scope, symbols, rules)
  declared_eq : flat.declaredRules = rules.toList

theorem flattening_of_flatten {g : Grammar} {flat : Flat} (h : flatten g = .ok flat) :
    Nonempty (Flattening g flat) := by
  unfold flatten at h
  obtain ⟨start, hstart, h⟩ := bind_eq_ok.1 h
  obtain ⟨st, hst, h⟩ := bind_eq_ok.1 h
  simp only at h
  split at h
  · contradiction
  · next hsize =>
    obtain ⟨extras, hextras, h⟩ := bind_eq_ok.1 h
    obtain ⟨word, hword, h⟩ := bind_eq_ok.1 h
    obtain ⟨groups, -, h⟩ := bind_eq_ok.1 h
    obtain rfl := Except.ok.inj h
    refine ⟨⟨_, _, _, named_foldl _ _ _ _, _, hstart, st, hst, Nat.le_of_not_lt hsize, rfl, rfl,
      rfl, rfl, rfl, ?_, hword, rfl, rfl⟩⟩
    exact hextras

namespace Flattening

variable {g : Grammar} {flat : Flat} (f : Flattening g flat)

private theorem sound_scope : f.scope.Sound f.symbols.size :=
  sound_names f.named (sound_terminalsOf g).scope (sound_terminalsOf g).size

/-- The scope in which rule bodies are lowered. -/
def full : Scope := { f.scope with fields := f.fields }

private theorem sound_full : f.full.Sound f.symbols.size :=
  ⟨f.sound_scope.names, f.sound_scope.literals, f.sound_scope.patterns⟩

theorem terminals_le : (terminalsOf g).symbols.size ≤ f.symbols.size := by
  obtain ⟨more, hmore⟩ := f.named.grown
  change f.symbols = _ at hmore
  rw [hmore, Array.size_append]
  omega

/-- A name of the scope that is no rule stands for a terminal. -/
private theorem terminal_of_lookup {name : String} {k : Kind}
    (hname : name ∉ g.draft.rules.map (·.1)) (h : f.full.lookup name = .ok k) :
    2 ≤ k.id ∧ k.id < flat.terminalCount := by
  unfold Scope.lookup at h
  split at h
  · next k' hget =>
    obtain rfl := Except.ok.inj h
    change f.scope.names[name]? = some _ at hget
    rw [f.named.others name hname] at hget
    rw [f.terminals_eq]
    exact (sound_terminalsOf g).scope.names name _ hget
  · contradiction

/-- The scope has all texts and patterns of a rule. -/
theorem covers {rule : String × Expr} (h : rule ∈ g.draft.rules) : f.full.Covers rule.2.parts := by
  have hcovers : (terminalsOf g).scope.Covers rule.2.parts :=
    (covers_terminalsOf g).subset fun x hx => List.mem_flatMap.2 ⟨rule, h, hx⟩
  constructor
  · intro x hx
    change x ∈ f.scope.literals
    rw [f.named.literals]
    exact hcovers.literals x hx
  · intro x hx
    change x ∈ f.scope.patterns
    rw [f.named.patterns]
    exact hcovers.patterns x hx

theorem lowers : Lowers flat.terminalCount f.symbols.size
    { symbols := f.symbols.push ⟨acceptName, false, false, true⟩
      productions :=
  #[{ lhs := .ofNat f.symbols.size, steps := [{ symbol := flat.start }] }] } f.state [] := by
  have htc := f.terminals_le
  have hsound := sound_terminalsOf g
  refine lowers_lowerRules f.sound_full (by rw [f.terminals_eq]; exact htc)
    (Nat.le_trans hsound.size htc) ?_ ?_ f.lowered
  · exact fun rule hrule => f.covers (List.of_mem_zip hrule).1
  · intro rule hrule hmax
    have hmem : rule.2 ∈ f.rules := by simpa using (List.of_mem_zip hrule).2
    rcases f.named.kinds rule.2 hmem with h | ⟨i, hle, hlt, heq⟩
    · simp at h
    · change i < f.symbols.size at hlt
      rw [heq, f.terminals_eq]
      simp only [Kind.ofNat]
      omega

theorem symbols_le : f.symbols.size < f.state.symbols.size := by
  have h := f.lowers.grown.size_le
  rw [Array.size_push] at h
  omega

theorem accept_id : (Kind.ofNat f.symbols.size).id = f.symbols.size := by
  have hlt := f.symbols_le
  have hmax := f.size
  simp only [Kind.ofNat]
  omega

/-- The symbols of the scope keep their numbers. -/
theorem getElem?_symbols {i : Nat} (h : i < f.symbols.size) : flat.symbols[i]? = f.symbols[i]? := by
  obtain ⟨more, hmore⟩ := f.lowers.grown.symbols
  rw [f.symbols_eq, hmore, Array.getElem?_append_left (by rw [Array.size_push]; omega),
    Array.getElem?_push_lt h, Array.getElem?_eq_getElem h]

/-- The accepting symbol is the one behind the rules. -/
theorem symbol_accept : flat.symbols[f.symbols.size]? = some ⟨acceptName, false, false, true⟩ := by
  obtain ⟨more, hmore⟩ := f.lowers.grown.symbols
  rw [f.symbols_eq, hmore, Array.getElem?_append_left (by rw [Array.size_push]; omega),
    Array.getElem?_push_size]

theorem productions_zero :
    flat.productions[0]? =
      some { lhs := .ofNat f.symbols.size, steps := [{ symbol := flat.start }] } := by
  obtain ⟨more, hmore⟩ := f.lowers.grown.productions
  rw [f.productions_eq, hmore, Array.getElem?_append_left (by simp)]
  rfl

theorem start_eq (hvalid : g.Valid) : ∃ i, (terminalsOf g).symbols.size ≤ i ∧ i < f.symbols.size ∧
    flat.start = ⟨i⟩ ∧ f.symbols[i]? = some ⟨g.start, false, true, true⟩ := by
  obtain ⟨i, hle, hlt, hget, hsymbol⟩ := f.named.rules g.start hvalid.start
  have hlookup : f.full.lookup g.start = .ok flat.start := f.lookup
  unfold Scope.lookup at hlookup
  change f.scope.names[g.start]? = _ at hget
  change i < f.symbols.size at hlt
  have hmax := f.size
  have hlt' := f.symbols_le
  split at hlookup
  · next k hk =>
    obtain rfl := Except.ok.inj hlookup
    change f.scope.names[g.start]? = _ at hk
    rw [hk, Option.some.injEq] at hget
    refine ⟨i, hle, hlt, ?_, ?_⟩
    · rw [hget, Kind.ofNat, Nat.min_eq_left (by omega)]
    · rw [hvalid.visible] at hsymbol
      exact hsymbol
  · contradiction

private theorem sound_state (hvalid : g.Valid) :
    f.state.Sound flat.terminalCount f.symbols.size := by
  obtain ⟨i, hle, hlt, hstart, -⟩ := f.start_eq hvalid
  have htc := f.terminals_le
  have h2 := (sound_terminalsOf g).size
  have hfirst (q : Nat) (p : Production)
      (hp : (#[{ lhs := .ofNat f.symbols.size, steps := [{ symbol := flat.start }] }] :
      Array Production)[q]? = some p) : q = 0 ∧
      p = { lhs := .ofNat f.symbols.size, steps := [{ symbol := flat.start }] } := by
    cases q with
    | zero => exact ⟨rfl, (Option.some.inj hp).symm⟩
    | succ q => simp at hp
  have hsize : (f.symbols.push ⟨acceptName, false, false, true⟩).size = f.symbols.size + 1 :=
    Array.size_push _
  refine (f.lowers.sound f.size (by simp) ⟨?_, ?_⟩).1
  · intro q p hp
    obtain ⟨rfl, rfl⟩ := hfirst q p hp
    rw [f.accept_id, f.terminals_eq, hsize]
    exact ⟨htc, by omega, fun h => absurd rfl h⟩
  · intro q p hp s hs
    obtain ⟨rfl, rfl⟩ := hfirst q p hp
    rw [List.mem_singleton.1 hs, hstart, hsize]
    exact ⟨Nat.le_trans h2 hle, Nat.lt_succ_of_lt hlt, Nat.ne_of_lt hlt⟩

end Flattening

/-- The results of a lookup are those of its names. -/
private theorem exists_of_mapM {α β ε : Type} {f : α → Except ε β} {xs : List α} {ys : List β}
    (h : xs.mapM f = .ok ys) : ∀ y ∈ ys, ∃ x ∈ xs, f x = .ok y := by
  induction xs generalizing ys with
  | nil =>
    obtain rfl : [] = ys := Except.ok.inj h
    intro y hy
    contradiction
  | cons x rest ih =>
    rw [List.mapM_cons] at h
    obtain ⟨y, hy, h⟩ := bind_eq_ok.1 h
    obtain ⟨more, hmore, h⟩ := bind_eq_ok.1 h
    obtain rfl := Except.ok.inj h
    intro z hz
    rcases List.mem_cons.1 hz with rfl | hz
    · exact ⟨x, by simp, hy⟩
    · obtain ⟨w, hw, hz⟩ := ih hmore z hz
      exact ⟨w, by simp [hw], hz⟩

private theorem Valid.not_rule {g : Grammar} (h : g.Valid) {name : String}
    (hname : name ∈ g.draft.extras ++ g.draft.word.toList) :
    name ∉ g.draft.rules.map (·.1) := by
  intro hrule
  obtain ⟨rule, hmem, rfl⟩ := List.mem_map.1 hrule
  exact h.distinct rule hmem (h.tokens _ hname)

/-- Flattening a valid grammar makes a well-formed one. -/
theorem wellFormed_of_flatten {g : Grammar} {flat : Flat} (hvalid : g.Valid)
    (h : flatten g = .ok flat) :
    flat.WellFormed := by
  obtain ⟨f⟩ := flattening_of_flatten h
  have hsound := f.sound_state hvalid
  have hterminals := sound_terminalsOf g
  obtain ⟨i, hle, hlt, hstart, hsymbol⟩ := f.start_eq hvalid
  constructor
  case terminals =>
    rw [f.terminals_eq]
    exact hterminals.size
  case bounded =>
    rw [f.symbols_eq]
    exact f.size
  case accepting =>
    refine ⟨.ofNat f.symbols.size, f.productions_zero, fun q p hp => ?_⟩
    rw [f.productions_eq] at hp
    constructor
    · intro hq heq
      exact (hsound.lhs q p hp).2.2 hq (by rw [heq, f.accept_id])
    · intro s hs heq
      exact (hsound.steps q p hp s hs).other (by rw [heq, f.accept_id])
  case lhs =>
    intro q p hp
    rw [f.productions_eq] at hp
    rw [f.symbols_eq]
    exact ⟨(hsound.lhs q p hp).1, (hsound.lhs q p hp).2.1⟩
  case symbols =>
    intro q p hp s hs
    rw [f.productions_eq] at hp
    rw [f.symbols_eq]
    exact ⟨(hsound.steps q p hp s hs).proper, (hsound.steps q p hp s hs).below⟩
  case index =>
    intro k q
    rw [Flat.productionsOf, f.index_eq, f.productions_eq]
    exact mem_indexByLhs (fun q p hp => (hsound.lhs q p hp).2.1) k q
  case start =>
    rw [hstart, f.terminals_eq]
    refine ⟨hle, ?_⟩
    rw [f.getElem?_symbols hlt, hsymbol]
    rfl
  case extras =>
    intro k hk
    obtain ⟨name, hname, hlookup⟩ := exists_of_mapM f.extras k (by simpa using hk)
    exact f.terminal_of_lookup (hvalid.not_rule (by simp [hname])) hlookup
  case word =>
    intro k hk
    have hword := f.word
    cases hd : g.draft.word with
    | none =>
      rw [hd] at hword
      have hnone : none = flat.word := Except.ok.inj hword
      rw [← hnone] at hk
      contradiction
    | some name =>
      rw [hd] at hword
      obtain ⟨k', hlookup, hword⟩ := bind_eq_ok.1 hword
      have hsome : some k' = flat.word := Except.ok.inj hword
      rw [hk] at hsome
      obtain rfl := Option.some.inj hsome
      exact f.terminal_of_lookup (hvalid.not_rule (by simp [hd])) hlookup
  case lexical =>
    intro t ht
    rw [f.lexical_eq, List.mem_reverse] at ht
    rw [f.terminals_eq]
    exact hterminals.lexical t ht

end Reparse.Grammar
