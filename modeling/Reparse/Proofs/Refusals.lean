import Reparse.Proofs.Conflicts
import Reparse.Proofs.MaximalMunch
import Reparse.Proofs.Terminals

/-! # Why a grammar in order may still be refused -/
namespace Reparse.Grammar
open Lexer (Pattern)
open Lowering

/-- A computation fails if its first part does, or its second part after it. -/
theorem bind_eq_error {ε α β : Type} {x : Except ε α} {f : α → Except ε β} {e : ε} :
    x >>= f = .error e ↔ x = .error e ∨ ∃ a, x = .ok a ∧ f a = .error e := by
  cases x with
  | error e' => simp [bind, Except.bind]
  | ok a => simp [bind, Except.bind]

/-- Every step of a fold that succeeds has succeeded. -/
private theorem exists_of_foldlM {ε α β : Type} {f : β → α → Except ε β} {xs : List α} {b c : β}
    (h : xs.foldlM f b = .ok c) :
    ∀ x ∈ xs, ∃ b c, f b x = .ok c := by
  induction xs generalizing b with
  | nil => exact nofun
  | cons x rest ih =>
    obtain ⟨b', hfirst, hrest⟩ := bind_eq_ok.1 h
    intro y hy
    rcases List.mem_cons.1 hy with rfl | hy
    · exact ⟨b, b', hfirst⟩
    · exact ih hrest y hy

/-- A fold that fails has a step that fails. -/
private theorem exists_of_foldlM_error {ε α β : Type} {f : β → α → Except ε β} {xs : List α} {b : β}
    {e : ε} (h : xs.foldlM f b = .error e) : ∃ x ∈ xs, ∃ b, f b x = .error e := by
  induction xs generalizing b with
  | nil => contradiction
  | cons x rest ih =>
    rcases bind_eq_error.1 h with hfirst | ⟨b', -, hrest⟩
    · exact ⟨x, List.mem_cons_self, b, hfirst⟩
    · obtain ⟨y, hy, hstep⟩ := ih hrest
      exact ⟨y, List.mem_cons_of_mem _ hy, hstep⟩

private theorem exists_of_forM_error {ε α : Type} {f : α → Except ε Unit} {xs : List α} {e : ε}
    (h : xs.forM f = .error e) :
    ∃ x ∈ xs, f x = .error e := by
  induction xs with
  | nil => contradiction
  | cons x rest ih =>
    rcases bind_eq_error.1 h with hfirst | ⟨-, -, hrest⟩
    · exact ⟨x, List.mem_cons_self, hfirst⟩
    · obtain ⟨y, hy, hstep⟩ := ih hrest
      exact ⟨y, List.mem_cons_of_mem _ hy, hstep⟩

private theorem exists_of_mapM_error {ε α β : Type} {f : α → Except ε β} {xs : List α} {e : ε}
    (h : xs.mapM f = .error e) :
    ∃ x ∈ xs, f x = .error e := by
  induction xs with
  | nil => contradiction
  | cons x rest ih =>
    rw [List.mapM_cons] at h
    rcases bind_eq_error.1 h with hfirst | ⟨y, -, hrest⟩
    · exact ⟨x, List.mem_cons_self, hfirst⟩
    · rcases bind_eq_error.1 hrest with hrest | ⟨ys, -, hpure⟩
      · obtain ⟨z, hz, hstep⟩ := ih hrest
        exact ⟨z, List.mem_cons_of_mem _ hz, hstep⟩
      · contradiction

private theorem all_of_forM {ε α : Type} {f : α → Except ε Unit} {xs : List α}
    (h : xs.forM f = .ok ()) :
    ∀ x ∈ xs, f x = .ok () := by
  induction xs with
  | nil => exact nofun
  | cons x rest ih =>
    obtain ⟨⟨⟩, hfirst, hrest⟩ := bind_eq_ok.1 h
    intro y hy
    rcases List.mem_cons.1 hy with rfl | hy
    · exact hfirst
    · exact ih hrest y hy

/-! ## What is checked -/

/-- Tokens match something, and whatever tokens, rules and conflict groups name is declared. -/
structure Checked (g : Grammar) : Prop where
  patterns : ∀ t ∈ g.draft.tokens, t.pattern.matchesEmpty = false
  modes : ∀ t ∈ g.draft.tokens, ∀ mode ∈ t.mode.toList ++ t.enter.toList, mode ∈ g.draft.modes
  bodies : ∀ rule ∈ g.draft.rules, ∀ name, Expr.symbol name ∈ rule.2.parts →
    name ∈ g.draft.tokens.map (·.name) ++ g.draft.rules.map (·.1)
  conflicts : ∀ name ∈ g.draft.conflicts.flatten, name ∈ g.draft.rules.map (·.1)

namespace Draft

private theorem checked_of_checkToken {d : Draft} {names next : Names} {t : TokenDecl}
    (h : d.checkToken names t = .ok next) :
    t.pattern.matchesEmpty = false ∧ ∀ mode ∈ t.mode.toList ++ t.enter.toList, mode ∈ d.modes := by
  simp only [checkToken] at h
  split at h
  · contradiction
  · split at h
    · contradiction
    · next hempty =>
      split at h
      · contradiction
      · next hmodes =>
        refine ⟨by simpa using hempty, fun mode hmode => ?_⟩
        have hknown := List.find?_eq_none.1 hmodes mode hmode
        simpa using hknown

theorem checked_of_validate {d : Draft} {g : Grammar} (h : d.validate = .ok g) : g.Checked := by
  obtain ⟨rfl, -⟩ := of_validate h
  unfold validate at h
  split at h
  · obtain ⟨tokens, htokens, h⟩ := bind_eq_ok.1 h
    obtain ⟨names, hnames, h⟩ := bind_eq_ok.1 h
    obtain ⟨⟨⟩, hbodies, h⟩ := bind_eq_ok.1 h
    obtain ⟨hholds, hnodup⟩ := holds_checks (of_checkToken _) htokens holds_empty List.nodup_nil
    rw [List.nil_append] at hholds hnodup
    obtain ⟨hall, -⟩ := holds_checks of_checkRuleName hnames hholds hnodup
    simp only at h
    split at h
    · contradiction
    · split at h
      · contradiction
      · next hconflicts =>
        refine ⟨fun t ht => ?_, fun t ht => ?_, fun rule hrule name hname => ?_,
          fun name hname => ?_⟩
        · obtain ⟨_, _, hcheck⟩ := exists_of_foldlM htokens t ht
          exact (checked_of_checkToken hcheck).1
        · obtain ⟨_, _, hcheck⟩ := exists_of_foldlM htokens t ht
          exact (checked_of_checkToken hcheck).2
        · have hbody := all_of_forM hbodies rule hrule
          unfold checkRuleBody at hbody
          split at hbody
          · contradiction
          · next hfound =>
            have hknown := List.find?_eq_none.1 hfound name (List.mem_filterMap.2 ⟨_, hname, rfl⟩)
            rw [Bool.not_eq_true', Bool.not_eq_false] at hknown
            exact (hall name).1 hknown
        · have hknown := List.find?_eq_none.1 hconflicts name hname
          rwa [Bool.not_eq_true', Bool.not_eq_false, holds_rules] at hknown
  · contradiction

end Draft

/-! ## Scopes -/

namespace Lowering

/-- The scope in which the bodies of rules are lowered. -/
def bodyScope (g : Grammar) : Scope :=
  { (g.draft.rules.foldl addRuleName ((terminalsOf g).scope, (terminalsOf g).symbols, #[])).1 with
    fields :=
      (sortNames ((g.draft.rules.flatMap fun r => r.2.parts).filterMap Expr.field?)).zipIdx.foldl
        (fun m (f, i) => m.insert f (.ofNat i)) {} }

/-- The scope has a symbol for what stands in a rule, and not the one for errors. -/
def Scope.Knows (scope : Scope) : Expr → Prop
  | .text literal => ∃ k, scope.literals[literal]? = some k ∧ k ≠ .error
  | .pattern p => ∃ k, scope.patterns[p]? = some k ∧ k ≠ .error
  | .symbol name => ∃ k, scope.lookup name = .ok k ∧ k ≠ .error
  | _ => True

/-- Lowering in a scope that knows all parts can only find too many alternatives. -/
def Overflows (e : Error) : Prop := ∃ rule, e = .tooManyAlternatives rule maxAlternatives

section
variable {scope : Scope}

mutual
theorem overflows_lower :
    ∀ (body : Expr) (c : Context) (st : State) (e : Error), (∀ x ∈ body.parts, scope.Knows x) →
    lower scope body c st = .error e → Overflows e
  | .blank, c, st, e, _, h => by
    rw [lower] at h
    contradiction
  | .text x, c, st, e, _, h => by
    rw [lower] at h
    contradiction
  | .symbol x, c, st, e, hknows, h => by
    rw [lower] at h
    obtain ⟨k, hk, -⟩ := hknows (.symbol x) (by simp [Expr.parts])
    rw [hk] at h
    contradiction
  | .pattern x, c, st, e, _, h => by
    rw [lower] at h
    contradiction
  | .seq items, c, st, e, hknows, h => by
    rw [lower] at h
    exact overflows_lowerSeq items c _ st e (fun x hx => hknows x (by simp [Expr.parts, hx])) h
  | .choice items, c, st, e, hknows, h => by
    rw [lower] at h
    exact overflows_lowerChoice items c st e (fun x hx => hknows x (by simp [Expr.parts, hx])) h
  | .optional body, c, st, e, hknows, h => by
    rw [lower] at h
    rcases bind_eq_error.1 h with h | ⟨⟨_, _⟩, -, h⟩
    · exact overflows_lower body c st e (fun x hx => hknows x (by simp [Expr.parts, hx])) h
    · contradiction
  | .repeated1 body, c, st, e, hknows, h => by
    rw [lower] at h
    rcases bind_eq_error.1 h with h | ⟨⟨_, _⟩, -, h⟩
    · exact overflows_lower body c _ e (fun x hx => hknows x (by simp [Expr.parts, hx])) h
    · contradiction
  | .repeated body, c, st, e, hknows, h => by
    rw [lower] at h
    rcases bind_eq_error.1 h with h | ⟨⟨_, _⟩, -, h⟩
    · exact overflows_lower body c _ e (fun x hx => hknows x (by simp [Expr.parts, hx])) h
    · contradiction
  | .field name body, c, st, e, hknows, h => by
    rw [lower] at h
    exact overflows_lower body _ st e (fun x hx => hknows x (by simp [Expr.parts, hx])) h
  | .prec p body, c, st, e, hknows, h => by
    rw [lower] at h
    exact overflows_lower body _ st e (fun x hx => hknows x (by simp [Expr.parts, hx])) h
  | .dynamic value body, c, st, e, hknows, h => by
    rw [lower] at h
    exact overflows_lower body _ st e (fun x hx => hknows x (by simp [Expr.parts, hx])) h

private theorem overflows_lowerSeq :
    ∀ (items : List Expr) (c : Context) (acc : List Alternative) (st : State) (e : Error),
    (∀ x ∈ Expr.listParts items, scope.Knows x) →
      lowerSeq scope items c acc st = .error e → Overflows e
  | [], c, acc, st, e, _, h => by
    rw [lowerSeq] at h
    contradiction
  | item :: rest, c, acc, st, e, hknows, h => by
    rw [lowerSeq] at h
    rcases bind_eq_error.1 h with h | ⟨⟨alts, st₁⟩, -, h⟩
    · exact overflows_lower item c st e (fun x hx => hknows x (by simp [Expr.listParts, hx])) h
    · simp only at h
      split at h
      · exact ⟨_, (Except.error.inj h).symm⟩
      · exact overflows_lowerSeq rest c _ st₁ e
          (fun x hx => hknows x (by simp [Expr.listParts, hx])) h

private theorem overflows_lowerChoice :
    ∀ (items : List Expr) (c : Context) (st : State) (e : Error),
    (∀ x ∈ Expr.listParts items, scope.Knows x) →
      lowerChoice scope items c st = .error e → Overflows e
  | [], c, st, e, _, h => by
    rw [lowerChoice] at h
    contradiction
  | item :: rest, c, st, e, hknows, h => by
    rw [lowerChoice] at h
    rcases bind_eq_error.1 h with h | ⟨⟨alts, st₁⟩, -, h⟩
    · exact overflows_lower item c st e (fun x hx => hknows x (by simp [Expr.listParts, hx])) h
    · rcases bind_eq_error.1 h with h | ⟨⟨_, _⟩, -, h⟩
      · exact overflows_lowerChoice rest c st₁ e
          (fun x hx => hknows x (by simp [Expr.listParts, hx])) h
      · contradiction
end

private theorem overflows_lowerRule {st : State} {rule : (String × Expr) × Kind} {e : Error}
    (hknows : ∀ x ∈ rule.1.2.parts, scope.Knows x) (h : lowerRule scope st rule = .error e) :
    Overflows e := by
  rcases bind_eq_error.1 h with h | ⟨⟨alts, st₁⟩, -, h⟩
  · exact overflows_lower rule.1.2 {} _ e hknows h
  · simp only at h
    split at h
    · exact ⟨rule.1.1, (Except.error.inj h).symm⟩
    · contradiction
end

private theorem sound_bodyScope (g : Grammar) :
    (bodyScope g).Sound (g.draft.rules.foldl addRuleName
      ((terminalsOf g).scope, (terminalsOf g).symbols, #[])).2.1.size := by
  have hsound :=
    sound_names (named_foldl g.draft.rules (terminalsOf g).scope (terminalsOf g).symbols #[])
    (sound_terminalsOf g).scope (sound_terminalsOf g).size
  exact ⟨hsound.names, hsound.literals, hsound.patterns⟩

private theorem ne_error {k : Kind} (h : 2 ≤ k.id) : k ≠ .error := by
  rintro rfl
  exact absurd h (by decide)

/-- Names of tokens and rules stand for symbols. -/
theorem lookup_bodyScope {g : Grammar} {name : String}
    (h : name ∈ g.draft.tokens.map (·.name) ++ g.draft.rules.map (·.1)) :
    ∃ k, (bodyScope g).lookup name = .ok k ∧ k ≠ .error := by
  have hnamed := named_foldl g.draft.rules (terminalsOf g).scope (terminalsOf g).symbols #[]
  have hnames : name ∈ (bodyScope g).names := by
    change name ∈
        (g.draft.rules.foldl addRuleName
        ((terminalsOf g).scope, (terminalsOf g).symbols, #[])).1.names
    rw [Std.HashMap.mem_iff_isSome_getElem?]
    by_cases hrule : name ∈ g.draft.rules.map (·.1)
    · obtain ⟨i, -, -, hget, -⟩ := hnamed.rules name hrule
      rw [hget]
      rfl
    · obtain ⟨token, htoken, rfl⟩ := List.mem_map.1 ((List.mem_append.1 h).resolve_right hrule)
      rw [hnamed.others _ hrule, ← Std.HashMap.mem_iff_isSome_getElem?]
      exact foldl_reaches (P := fun t : Terminals => token.name ∈ t.scope.names)
        (f := Terminals.addToken g.draft.modes) (fun t _ h => Std.HashMap.mem_insert.2 (.inr h))
        htoken (fun t => Std.HashMap.mem_insert_self) _
  have hget := Std.HashMap.getElem?_eq_some_getElem hnames
  refine ⟨(bodyScope g).names[name], ?_, ne_error ((sound_bodyScope g).names name _ hget).1⟩
  rw [Scope.lookup, hget]

/-- The scope knows all parts of rules that are checked. -/
theorem knows_bodyScope {g : Grammar} (hg : g.Checked) {rule : String × Expr}
    (hrule : rule ∈ g.draft.rules) {part : Expr} (hpart : part ∈ rule.2.parts) :
    (bodyScope g).Knows part := by
  have hcovers := covers_terminalsOf g
  have hnamed := named_foldl g.draft.rules (terminalsOf g).scope (terminalsOf g).symbols #[]
  have hmem : part ∈ g.draft.rules.flatMap fun r => r.2.parts :=
    List.mem_flatMap.2 ⟨rule, hrule, hpart⟩
  cases part with
  | text x =>
    have hx : x ∈ (bodyScope g).literals := by
      change x ∈
          (g.draft.rules.foldl addRuleName
          ((terminalsOf g).scope, (terminalsOf g).symbols, #[])).1.literals
      rw [hnamed.literals]
      exact hcovers.literals x hmem
    have hget := Std.HashMap.getElem?_eq_some_getElem hx
    exact ⟨_, hget, ne_error ((sound_bodyScope g).literals x _ hget).1⟩
  | pattern x =>
    have hx : x ∈ (bodyScope g).patterns := by
      change x ∈
          (g.draft.rules.foldl addRuleName
          ((terminalsOf g).scope, (terminalsOf g).symbols, #[])).1.patterns
      rw [hnamed.patterns]
      exact hcovers.patterns x hmem
    have hget := Std.HashMap.getElem?_eq_some_getElem hx
    exact ⟨_, hget, ne_error ((sound_bodyScope g).patterns x _ hget).1⟩
  | symbol name => exact lookup_bodyScope (hg.bodies rule hrule name hpart)
  | _ => trivial

end Lowering

/-- The steps of flattening. -/
theorem flatten_eq (g : Grammar) : flatten g = (do
    let start ← (bodyScope g).lookup g.start
    let named :=
  g.draft.rules.foldl addRuleName ((terminalsOf g).scope, (terminalsOf g).symbols, #[])
    let st ← (g.draft.rules.zip named.2.2.toList).foldlM (lowerRule (bodyScope g))
      { symbols := named.2.1.push ⟨acceptName, false, false, true⟩
        productions := #[{ lhs := .ofNat named.2.1.size, steps := [{ symbol := start }] }] }
    if st.symbols.size > maxId then throw (.tooManySymbols maxId)
    return {
      name := g.draft.name
      version := g.draft.version
      symbols := st.symbols
      terminalCount := (terminalsOf g).symbols.size
      productions := st.productions
      byLhs := indexByLhs st.symbols.size st.productions
      start
      fields :=
  (sortNames ((g.draft.rules.flatMap fun r => r.2.parts).filterMap Expr.field?)).toArray
      extras := (← g.draft.extras.mapM (bodyScope g).lookup).toArray
      word := ← g.draft.word.mapM (bodyScope g).lookup
      wordPattern :=
  g.draft.word.bind fun name => (g.draft.tokens.find? (·.name == name)).map (·.pattern)
      conflictGroups := ← g.draft.conflicts.mapM fun group => group.mapM (bodyScope g).lookup
      declaredRules := named.2.2.toList
      lexical := (terminalsOf g).lexical.reverse
      modes := g.draft.modes }) := rfl

/-- Lowers all rules, behind the production for the start symbol. -/
def lowerRules (g : Grammar) (start : Kind) : Except Error State :=
  let named := g.draft.rules.foldl addRuleName ((terminalsOf g).scope, (terminalsOf g).symbols, #[])
  (g.draft.rules.zip named.2.2.toList).foldlM (lowerRule (bodyScope g))
    { symbols := named.2.1.push ⟨acceptName, false, false, true⟩
      productions := #[{ lhs := .ofNat named.2.1.size, steps := [{ symbol := start }] }] }

/-- Where all names are known, flattening fails only in a rule, or for too many symbols. -/
theorem lowerRules_of_flatten_error {g : Grammar} (hvalid : g.Valid) (hg : g.Checked) {e : Error}
    (h : flatten g = .error e) :
    ∃ start, (bodyScope g).lookup g.start = .ok start ∧ (lowerRules g start = .error e ∨
      ∃ st, lowerRules g start = .ok st ∧ maxId < st.symbols.size ∧ e = .tooManySymbols maxId) := by
  have hlookup {name : String}
      (hname : name ∈ g.draft.tokens.map (·.name) ++ g.draft.rules.map (·.1)) {e : Error} :
      (bodyScope g).lookup name ≠ .error e := by
    obtain ⟨k, hk, -⟩ := lookup_bodyScope hname
    rw [hk]
    exact nofun
  have htoken {name : String} (hname : name ∈ g.draft.extras ++ g.draft.word.toList) {e : Error} :
      (bodyScope g).lookup name ≠ .error e :=
    hlookup (List.mem_append_left _ (hvalid.tokens name hname))
  rw [flatten_eq] at h
  rcases bind_eq_error.1 h with h | ⟨start, hstart, h⟩
  · exact absurd h (hlookup (List.mem_append_right _ hvalid.start))
  refine ⟨start, hstart, ?_⟩
  rcases bind_eq_error.1 h with h | ⟨st, hst, h⟩
  · exact .inl h
  simp only at h
  split at h
  · next hsize => exact .inr ⟨st, hst, hsize, (Except.error.inj h).symm⟩
  rcases bind_eq_error.1 h with h | ⟨extras, -, h⟩
  · obtain ⟨name, hname, hstep⟩ := exists_of_mapM_error h
    exact absurd hstep (htoken (List.mem_append_left _ hname))
  rcases bind_eq_error.1 h with h | ⟨word, -, h⟩
  · cases hword : g.draft.word with
    | none =>
      rw [hword] at h
      contradiction
    | some name =>
      rw [hword] at h
      rcases bind_eq_error.1 h with h | ⟨k, -, h⟩
      · exact absurd h
          (htoken (List.mem_append_right _ (by rw [hword]; exact List.mem_singleton.2 rfl)))
      · contradiction
  rcases bind_eq_error.1 h with h | ⟨groups, -, h⟩
  · obtain ⟨group, hgroup, hstep⟩ := exists_of_mapM_error h
    obtain ⟨name, hname, hstep⟩ := exists_of_mapM_error hstep
    exact absurd hstep
      (hlookup
      (List.mem_append_right _ (hg.conflicts name (List.mem_flatten.2 ⟨group, hgroup, hname⟩))))
  · contradiction

/-- Where all names are known, flattening fails only for too many alternatives or symbols. -/
theorem of_flatten_error {g : Grammar} (hvalid : g.Valid) (hg : g.Checked) {e : Error}
    (h : flatten g = .error e) :
    Overflows e ∨ e = .tooManySymbols maxId := by
  obtain ⟨start, -, h | ⟨st, -, -, rfl⟩⟩ := lowerRules_of_flatten_error hvalid hg h
  · obtain ⟨rule, hrule, st, hstep⟩ := exists_of_foldlM_error h
    exact .inl
      (overflows_lowerRule (fun x hx => knows_bodyScope hg (List.of_mem_zip hrule).1 hx) hstep)
  · exact .inr rfl

/-! ## Modes -/

/-- Adds a mode that is new. -/
def addMode (modes : List String) (name : String) : List String :=
  if name ∈ modes then modes else modes ++ [name]

private theorem modes_declareMode (d : Draft) (name : String) :
    (d.declareMode name).modes = addMode d.modes name := by
  unfold Draft.declareMode addMode
  by_cases h : name ∈ d.modes
  · rw [if_pos h, if_pos (by simpa using h)]
  · rw [if_neg h, if_neg (by simpa using h)]

private theorem modes_foldl_declareMode (names : List String) (d : Draft) :
    (names.foldl Draft.declareMode d).modes = names.foldl addMode d.modes := by
  induction names generalizing d with
  | nil => rfl
  | cons name rest ih => rw [List.foldl_cons, List.foldl_cons, ih, modes_declareMode]

private theorem modes_foldl_spec (names : List String) (spec : Lexer.Spec) :
    (names.foldl (fun spec name => (spec.declareMode name).2) spec).modes.toList =
      names.foldl addMode spec.modes.toList := by
  induction names generalizing spec with
  | nil => rfl
  | cons name rest ih =>
    rw [List.foldl_cons, List.foldl_cons, ih]
    congr 1
    unfold Lexer.Spec.declareMode addMode
    cases hfind : spec.modes.findIdx? (· == name) with
    | none =>
      rw [Array.findIdx?_eq_none_iff] at hfind
      rw [if_neg fun h => by simpa using hfind name (Array.mem_toList_iff.1 h)]
      simp
    | some i =>
      obtain ⟨hlt, heq, -⟩ := Array.findIdx?_eq_some_iff_getElem.1 hfind
      rw [if_pos (by rw [← eq_of_beq heq]; simp)]

/-- Modes are declared once each, and the default one comes first. -/
theorem foldl_addMode (names : List String) {modes : List String} (h : modes.Nodup) :
    (names.foldl addMode modes).Nodup ∧ ∃ more, names.foldl addMode modes = modes ++ more := by
  induction names generalizing modes with
  | nil => exact ⟨h, [], by simp⟩
  | cons name rest ih =>
    rw [List.foldl_cons, addMode]
    split
    · exact ih h
    · next hnew =>
      have hsnoc : (modes ++ [name]).Nodup := by
        rw [List.nodup_append]
        refine ⟨h, List.nodup_singleton name, fun x hx y hy hxy => hnew ?_⟩
        rwa [← List.mem_singleton.1 hy, ← hxy]
      obtain ⟨hnodup, more, hmore⟩ := ih hsnoc
      exact ⟨hnodup, name :: more, by rw [hmore, List.append_assoc]; rfl⟩

/-- Different modes are all added. -/
private theorem foldl_addMode_of_nodup {names modes : List String} (h : (modes ++ names).Nodup) :
    names.foldl addMode modes = modes ++ names := by
  induction names generalizing modes with
  | nil => simp
  | cons name rest ih =>
    have hnew : name ∉ modes := fun hmem =>
      (List.nodup_append.1 h).2.2 name hmem name List.mem_cons_self rfl
    rw [List.append_cons] at h
    rw [List.foldl_cons, addMode, if_neg hnew, ih h, List.append_assoc]
    rfl

/-- The lexer has the modes of the grammar. -/
theorem modes_lexerSpec {flat : Flat} {names : List String}
    (h : flat.modes = names.foldl addMode [defaultMode]) :
    flat.lexerSpec.modes.toList = flat.modes := by
  obtain ⟨hnodup, more, hmore⟩ := foldl_addMode names (List.nodup_singleton defaultMode)
  rw [← h] at hnodup hmore
  change (flat.modes.foldl (fun spec name => (spec.declareMode name).2)
      ({} : Lexer.Spec)).modes.toList = _
  rw [modes_foldl_spec, hmore]
  rw [hmore] at hnodup
  change (defaultMode :: more).foldl addMode [defaultMode] = _
  rw [List.foldl_cons, addMode, if_pos (List.mem_singleton.2 rfl), foldl_addMode_of_nodup hnodup]

/-- The number of a declared mode is its place. -/
theorem getElem?_modeNumber {modes : List String} {name : String} (hcount : modes.length ≤ maxId)
    (h : name ∈ modes) :
    modes[Terminals.modeNumber modes name]? = some name := by
  unfold Terminals.modeNumber
  cases hfind : modes.findIdx? (· == name) with
  | none =>
    rw [List.findIdx?_eq_none_iff] at hfind
    simpa using hfind name h
  | some i =>
    obtain ⟨hlt, heq, -⟩ := List.findIdx?_eq_some_iff_getElem.1 hfind
    rw [Option.getD_some, if_pos (by omega), List.getElem?_eq_getElem hlt, eq_of_beq heq]

/-- Every rule of the lexer is for a terminal, in modes that the lexer has. -/
theorem mem_lexical {g : Grammar} {flat : Flat} (f : Flattening g flat) {token : LexicalToken}
    (h : token ∈ flat.lexical) :
    ∃ (i : Nat) (t : Terminal), g.terminals[i]? = some t ∧
      token = t.lexical g.draft.modes ⟨i + 2⟩ := by
  rw [f.lexical_eq_terminals] at h
  obtain ⟨⟨t, n⟩, hmem, rfl⟩ := List.mem_map.1 h
  obtain ⟨hle, hget⟩ := List.mk_mem_zipIdx_iff_le_and_getElem?_sub.1 hmem
  have hlt := (List.getElem?_eq_some_iff.1 hget).1
  have hcount := f.terminalCount_eq
  have hmax := f.terminalCount_le
  refine ⟨n - 2, t, hget, ?_⟩
  rw [Kind.ofNat, Nat.min_eq_left (by omega), Nat.sub_add_cancel hle]

/-- A key that is written for a terminal stands for it. -/
theorem of_key {g : Grammar} {flat : Flat} (f : Flattening g flat) {κ : Type} [BEq κ] [LawfulBEq κ]
    [Hashable κ] {key : Terminal → Option κ} {x : κ} {k : Kind}
    (hk : (number {} 2 (g.terminals.map key))[x]? = some k) :
    ∃ (i : Nat) (t : Terminal), g.terminals[i]? = some t ∧ key t = some x ∧ k = ⟨i + 2⟩ := by
  rcases of_getElem?_number hk with ⟨i, hi, rfl⟩ | ⟨-, hnone⟩
  · rw [List.getElem?_map, Option.map_eq_some_iff] at hi
    obtain ⟨t, hi, ht⟩ := hi
    have hlt := (List.getElem?_eq_some_iff.1 hi).1
    have hcount := f.terminalCount_eq
    have hmax := f.terminalCount_le
    refine ⟨i, t, hi, ht, ?_⟩
    rw [Kind.ofNat, Nat.min_eq_left (by omega), Nat.add_comm]
  · simp at hnone

section
variable {g : Grammar} {flat : Flat} (f : Flattening g flat)
include f

theorem bodyScope_eq :
    (bodyScope g).names = f.full.names ∧ (bodyScope g).literals = f.full.literals ∧
    (bodyScope g).patterns = f.full.patterns := by
  unfold bodyScope
  rw [f.folded]
  exact ⟨rfl, rfl, rfl⟩

/-- The name of a declared token stands for no other terminal. -/
private theorem lookup_ne_of_terminal {i : Nat} {t : Terminal} (hi : g.terminals[i]? = some t)
    (hother : ∀ decl, t ≠ .token decl) (name : String) :
    (bodyScope g).lookup name ≠ .ok ⟨i + 2⟩ := by
  intro hlookup
  unfold Scope.lookup at hlookup
  split at hlookup
  · next k hget =>
    obtain rfl := Except.ok.inj hlookup
    rw [(bodyScope_eq f).1, f.names_eq] at hget
    have hlt := (List.getElem?_eq_some_iff.1 hi).1
    have hcount := f.terminalCount_eq
    have hmax := f.terminalCount_le
    rcases of_getElem?_number hget with ⟨j, -, hk⟩ | ⟨-, hget⟩
    · have hid := congrArg Kind.id hk
      simp only [Kind.ofNat] at hid
      omega
    · obtain ⟨j, u, hj, hname, hk⟩ := of_key f hget
      obtain rfl : i = j := by simpa using hk
      obtain rfl := Option.some.inj (hi.symm.trans hj)
      cases t with
      | token decl => exact hother decl rfl
      | literal => contradiction
      | pattern => contradiction
  · contradiction

end

/-- The errors with which a grammar in order is refused. A kind with an empty pattern is that of a
text or of an unnamed pattern in the body of some rule, and no declared token's. -/
inductive Refusal (g : Grammar) : Error → Prop
  | alternatives (rule : String) : Refusal g (.tooManyAlternatives rule maxAlternatives)
  | symbols : Refusal g (.tooManySymbols maxId)
  | text {rule : String × Expr} {k : Kind} (hrule : rule ∈ g.draft.rules)
      (htext : Expr.text "" ∈ rule.2.parts) (hk : (bodyScope g).literals[""]? = some k)
      (hother : ∀ t ∈ g.draft.tokens, (bodyScope g).lookup t.name ≠ .ok k) :
      Refusal g (.lexer (.emptyPattern k))
  | pattern {rule : String × Expr} {p : Pattern} {k : Kind} (hrule : rule ∈ g.draft.rules)
      (hpattern : Expr.pattern p ∈ rule.2.parts) (hempty : p.matchesEmpty = true)
      (hk : (bodyScope g).patterns[p]? = some k)
      (hother : ∀ t ∈ g.draft.tokens, (bodyScope g).lookup t.name ≠ .ok k) :
      Refusal g (.lexer (.emptyPattern k))
  | conflicts {list : List Conflict} (hne : list ≠ []) : Refusal g (.conflicts list)

/-- Nothing is looked up by a number that is not there: symbols of productions in the symbol table,
modes of tokens in the lexer, and items and targets of transitions in productions and states. -/
structure InRange (g : Grammar) (flat : Flat) (mode : Table.Mode) : Prop where
  wellFormed : flat.WellFormed
  modes : flat.lexerSpec.modes.toList = g.draft.modes
  rules : ∀ rule ∈ flat.lexerSpec.rules, rule.mode < flat.lexerSpec.modes.size ∧
    ∀ next, rule.nextMode = some next → next < flat.lexerSpec.modes.size
  tokens : ∀ (i : Nat) (decl : TokenDecl), g.terminals[i]? = some (.token decl) →
    ∃ token, flat.lexical[i]? = some token ∧
    g.draft.modes[token.mode]? = some (decl.mode.getD defaultMode) ∧
    token.nextMode.map (g.draft.modes[·]?) = decl.enter.map some
  kernels : ∀ (id : Nat) st, (Table.automaton flat (Table.First.compute flat) mode)[id]? = some st →
    Table.Items.Proper flat st.kernel
  targets : ∀ (id : Nat) st, (Table.automaton flat (Table.First.compute flat) mode)[id]? = some st →
    ∀ e ∈ st.transitions, ∃ next, (Table.automaton flat (Table.First.compute flat) mode)[e.2]? =
      some next

/-- Where a terminal comes from. -/
theorem of_mem_terminals {g : Grammar} {t : Terminal} (h : t ∈ g.terminals) :
    (∃ text, t = .literal text ∧ ∃ rule ∈ g.draft.rules, Expr.text text ∈ rule.2.parts) ∨
      (∃ p n, t = .pattern p n ∧ ∃ rule ∈ g.draft.rules, Expr.pattern p ∈ rule.2.parts) ∨
        ∃ decl ∈ g.draft.tokens, t = .token decl := by
  unfold terminals at h
  rcases List.mem_append.1 h with h | h
  · rcases List.mem_append.1 h with h | h
    · obtain ⟨text, htext, rfl⟩ := List.mem_map.1 h
      rw [List.mem_eraseDups, List.mem_filter] at htext
      obtain ⟨part, hpart, htext⟩ := List.mem_filterMap.1 htext.1
      obtain ⟨rule, hrule, hpart⟩ := List.mem_flatMap.1 hpart
      cases part with
      | text x =>
        obtain rfl := Option.some.inj htext
        exact .inl ⟨x, rfl, rule, hrule, hpart⟩
      | _ => contradiction
    · obtain ⟨⟨p, n⟩, hp, rfl⟩ := List.mem_map.1 h
      have hmem := List.mem_of_getElem? (List.mk_mem_zipIdx_iff_getElem?.1 hp)
      rw [List.mem_eraseDups] at hmem
      obtain ⟨part, hpart, hpattern⟩ := List.mem_filterMap.1 hmem
      obtain ⟨rule, hrule, hpart⟩ := List.mem_flatMap.1 hpart
      cases part with
      | pattern x =>
        obtain rfl := Option.some.inj hpattern
        exact .inr (.inl ⟨x, n, rfl, rule, hrule, hpart⟩)
      | _ => contradiction
  · obtain ⟨decl, hdecl, rfl⟩ := List.mem_map.1 h
    exact .inr (.inr ⟨decl, hdecl, rfl⟩)

private theorem mem_tokens {g : Grammar} {i : Nat} {decl : TokenDecl}
    (h : g.terminals[i]? = some (.token decl)) :
    decl ∈ g.draft.tokens := by
  rcases of_mem_terminals (List.mem_of_getElem? h) with
      ⟨_, ht, -⟩ | ⟨_, _, ht, -⟩ | ⟨other, hother, ht⟩
  · contradiction
  · contradiction
  · rwa [Terminal.token.inj ht]

/-- The modes that a token is read in and enters are declared. -/
theorem Checked.mem_modes {g : Grammar} (hg : g.Checked) (hdefault : defaultMode ∈ g.draft.modes)
    {decl : TokenDecl} (hdecl : decl ∈ g.draft.tokens) :
    decl.mode.getD defaultMode ∈ g.draft.modes ∧ ∀ enter, decl.enter = some enter →
      enter ∈ g.draft.modes := by
  have hmodes := hg.modes decl hdecl
  constructor
  · cases hmode : decl.mode with
    | none => exact hdefault
    | some mode =>
      exact hmodes mode (List.mem_append_left _ (by rw [hmode]; exact List.mem_singleton.2 rfl))
  · intro enter henter
    exact hmodes enter (List.mem_append_right _ (by rw [henter]; exact List.mem_singleton.2 rfl))

/-- The modes of a terminal are declared. -/
theorem modes_lexical {g : Grammar} (hg : g.Checked) (hdefault : defaultMode ∈ g.draft.modes)
    (hcount : g.draft.modes.length ≤ maxId) {t : Terminal} (ht : t ∈ g.terminals) (k : Kind) :
    (t.lexical g.draft.modes k).mode < g.draft.modes.length ∧
      ∀ next, (t.lexical g.draft.modes k).nextMode = some next → next < g.draft.modes.length := by
  have hlt {name : String} (hname : name ∈ g.draft.modes) :
      Terminals.modeNumber g.draft.modes name < g.draft.modes.length :=
    (List.getElem?_eq_some_iff.1 (getElem?_modeNumber hcount hname)).1
  rcases of_mem_terminals ht with ⟨text, rfl, -⟩ | ⟨p, n, rfl, -⟩ | ⟨decl, hdecl, rfl⟩
  · exact ⟨List.length_pos_of_mem hdefault, nofun⟩
  · exact ⟨List.length_pos_of_mem hdefault, nofun⟩
  · obtain ⟨hmode, henter⟩ := hg.mem_modes hdefault hdecl
    refine ⟨hlt hmode, fun next hnext => ?_⟩
    obtain ⟨enter, hsome, rfl⟩ := Option.map_eq_some_iff.1 hnext
    exact hlt (henter enter hsome)

section
variable {d : Draft} {g : Grammar} {flat : Flat} (hvalid : d.validate = .ok g)
  (hmodes : ∃ names : List String, d.modes =
      (names.foldl Draft.declareMode { name := d.name }).modes)
  (hcount : d.modes.length < 65536)
include hvalid hmodes

/-- The modes of a grammar, among which is the default one, are those of its lexer. -/
theorem modes_of_validate (hflat : flatten g = .ok flat) :
    flat.lexerSpec.modes.toList = g.draft.modes ∧ defaultMode ∈ g.draft.modes := by
  obtain ⟨names, hnames⟩ := hmodes
  rw [modes_foldl_declareMode, ← (Draft.of_validate hvalid).1] at hnames
  have hsame : flat.modes = g.draft.modes := by
    rw [flatten_eq] at hflat
    obtain ⟨_, -, hflat⟩ := bind_eq_ok.1 hflat
    obtain ⟨_, -, hflat⟩ := bind_eq_ok.1 hflat
    simp only at hflat
    split at hflat
    · contradiction
    obtain ⟨_, -, hflat⟩ := bind_eq_ok.1 hflat
    obtain ⟨_, -, hflat⟩ := bind_eq_ok.1 hflat
    obtain ⟨_, -, hflat⟩ := bind_eq_ok.1 hflat
    rw [← Except.ok.inj hflat]
  constructor
  · rw [modes_lexerSpec (hsame.trans hnames), hsame]
  · obtain ⟨-, more, hmore⟩ := foldl_addMode names (List.nodup_singleton defaultMode)
    have hall : g.draft.modes = [defaultMode] ++ more := hnames.trans hmore
    rw [hall]
    exact List.mem_cons_self

include hcount

/-- The lexer is refused only for an empty text or unnamed pattern in a rule. -/
theorem refusal_of_build (hflat : flatten g = .ok flat) {e : Lexer.BuildError}
    (h : flat.lexerSpec.build = .error e) :
    Refusal g (.lexer e) := by
  obtain ⟨f⟩ := flattening_of_flatten hflat
  obtain ⟨hsame, hdefault⟩ := modes_of_validate hvalid hmodes hflat
  have hchecked := Draft.checked_of_validate hvalid
  have hdistinct := distinct_terminals hvalid
  obtain ⟨-, hliterals, hpatterns⟩ := bodyScope_eq f
  rcases bind_eq_error.1 h with h | ⟨-, -, h⟩
  swap
  · contradiction
  obtain ⟨rule, hrule, hcheck⟩ := exists_of_forM_error h
  obtain ⟨token, htoken, rfl⟩ := List.mem_map.1 (show rule ∈ flat.lexical.map _ from hrule)
  obtain ⟨i, t, hi, rfl⟩ := mem_lexical f htoken
  have ht := List.mem_of_getElem? hi
  obtain ⟨hmode, hnext⟩ := modes_lexical hchecked hdefault
    (by rw [(Draft.of_validate hvalid).1]; exact Nat.le_of_lt_succ hcount) ht ⟨i + 2⟩
  have hsize : flat.lexerSpec.modes.size = g.draft.modes.length := by
    rw [← hsame, Array.length_toList]
  rw [← hsize] at hmode hnext
  have hempty : (t.lexical g.draft.modes ⟨i + 2⟩).pattern.matchesEmpty = true ∧
      e = .emptyPattern ⟨i + 2⟩ := by
    simp only [Lexer.Spec.checkRule, Terminal.kind_lexical, ge_iff_le] at hcheck
    split at hcheck
    · next hempty => exact ⟨hempty, (Except.error.inj hcheck).symm⟩
    · rw [if_neg (Nat.not_le.2 hmode)] at hcheck
      split at hcheck
      · next next hsome =>
        rw [if_neg (Nat.not_le.2 (hnext next hsome))] at hcheck
        contradiction
      · contradiction
  obtain ⟨hempty, rfl⟩ := hempty
  clear hrule
  rcases of_mem_terminals ht with
      ⟨text, rfl, rule, hrule, htext⟩ | ⟨p, n, rfl, rule, hrule, hpattern⟩ | ⟨decl, hdecl, rfl⟩
  · obtain rfl : text = "" := by simpa [Terminal.lexical, Pattern.matchesEmpty] using hempty
    obtain ⟨k, hk, -⟩ := knows_bodyScope hchecked hrule htext
    have hkind := hk
    rw [hliterals, f.literals_eq] at hkind
    obtain ⟨j, u, hj, hu, rfl⟩ := of_key f hkind
    obtain rfl := Terminal.eq_of_nodup hdistinct.texts hi hj rfl hu
    exact .text hrule htext hk fun decl _ =>
      lookup_ne_of_terminal f hi (fun _ => Terminal.noConfusion) decl.name
  · obtain ⟨k, hk, -⟩ := knows_bodyScope hchecked hrule hpattern
    have hkind := hk
    rw [hpatterns, f.patterns_eq] at hkind
    obtain ⟨j, u, hj, hu, rfl⟩ := of_key f hkind
    obtain rfl := Terminal.eq_of_nodup hdistinct.patterns hi hj rfl hu
    exact .pattern hrule hpattern hempty hk fun decl _ =>
      lookup_ne_of_terminal f hi (fun _ => Terminal.noConfusion) decl.name
  · change decl.pattern.matchesEmpty = true at hempty
    rw [hchecked.patterns decl hdecl] at hempty
    contradiction

private theorem inRange_of_flatten (hflat : flatten g = .ok flat) (mode : Table.Mode) :
    InRange g flat mode := by
  obtain ⟨f⟩ := flattening_of_flatten hflat
  obtain ⟨hsame, hdefault⟩ := modes_of_validate hvalid hmodes hflat
  have hchecked := Draft.checked_of_validate hvalid
  have hg : flat.WellFormed := wellFormed_of_flatten (Draft.valid_of_validate hvalid) hflat
  have hlength : g.draft.modes.length ≤ maxId := by
    rw [(Draft.of_validate hvalid).1]
    exact Nat.le_of_lt_succ hcount
  refine ⟨hg, hsame, fun rule hrule => ?_, fun i decl hi => ?_, fun id st hst => ?_,
    fun id st hst e he => ?_⟩
  · obtain ⟨token, htoken, rfl⟩ :=
      List.mem_map.1 (show rule ∈ flat.lexical.map _ from Array.mem_toList_iff.2 hrule)
    obtain ⟨i, t, hi, rfl⟩ := mem_lexical f htoken
    rw [← Array.length_toList, hsame]
    exact modes_lexical hchecked hdefault hlength (List.mem_of_getElem? hi) _
  · obtain ⟨hmode, henter⟩ := hchecked.mem_modes hdefault (mem_tokens hi)
    refine ⟨(Terminal.token decl).lexical g.draft.modes (.ofNat (2 + i)), ?_,
      getElem?_modeNumber hlength hmode, ?_⟩
    · rw [f.lexical_eq_terminals, List.getElem?_map, List.getElem?_zipIdx, hi]
      rfl
    · change (decl.enter.map (Terminals.modeNumber g.draft.modes)).map (g.draft.modes[·]?) = _
      cases hsome : decl.enter with
      | none => rfl
      | some enter => exact congrArg some (getElem?_modeNumber hlength (henter enter hsome))
  · exact (Table.kernel_automaton mode hst).proper hg (Table.First.exact_compute hg)
  · have hsettled := Table.settled_automaton hg mode hst
    obtain ⟨i, hi⟩ := List.getElem?_of_mem (Array.mem_toList_iff.2 he)
    obtain ⟨hlt, hget⟩ := List.getElem?_eq_some_iff.1 hi
    obtain ⟨-, next, hnext, -⟩ :=
      (List.forall₂_iff_get.1 hsettled).2 i (by rwa [hsettled.length_eq]) hlt
    rw [← hget]
    exact ⟨next, hnext⟩

/-- What passes validation compiles, or has too many alternatives or symbols, or a text or unnamed
pattern in a rule that matches nothing, or conflicts. All names, texts and patterns in rules stand
for symbols, and no number is used for which there is nothing. -/
theorem compile_of_validate (mode : Table.Mode) :
    (∀ e, g.compile mode = .error e → Refusal g e) ∧
      (∀ rule ∈ g.draft.rules, ∀ part ∈ rule.2.parts, (bodyScope g).Knows part) ∧
        ∀ flat, flatten g = .ok flat → InRange g flat mode := by
  have hchecked := Draft.checked_of_validate hvalid
  refine ⟨fun e h => ?_, fun rule hrule part hpart => knows_bodyScope hchecked hrule hpart,
    fun flat hflat => inRange_of_flatten hvalid hmodes hcount hflat mode⟩
  rcases bind_eq_error.1 h with h | ⟨flat, hflat, h⟩
  · rcases of_flatten_error (Draft.valid_of_validate hvalid) hchecked h with ⟨rule, rfl⟩ | rfl
    · exact .alternatives rule
    · exact .symbols
  rcases bind_eq_error.1 h with h | ⟨lexer, -, h⟩
  · cases hbuild : flat.lexerSpec.build with
    | ok lexer =>
      rw [hbuild] at h
      contradiction
    | error e' =>
      rw [hbuild] at h
      obtain rfl := Except.error.inj h
      exact refusal_of_build hvalid hmodes hcount hflat hbuild
  rcases bind_eq_error.1 h with h | ⟨table, -, h⟩
  · obtain ⟨hreported, rfl⟩ := Table.reported_of_error h
    exact .conflicts (by simpa using hreported.ne_nil)
  · contradiction

end

/-- Three rules for one letter are refused for their conflict, though all their names are known. -/
theorem compile_of_validate_rivals :
    (⟨Table.Rivals.draft, "s"⟩ : Grammar).compile .lalr =
        .error (.conflicts [Table.Rivals.conflict]) ∧
      Refusal ⟨Table.Rivals.draft, "s"⟩ (.conflicts [Table.Rivals.conflict]) ∧
      (∀ rule ∈ Table.Rivals.draft.rules, ∀ part ∈ rule.2.parts,
        (bodyScope ⟨Table.Rivals.draft, "s"⟩).Knows part) ∧
      InRange ⟨Table.Rivals.draft, "s"⟩ Table.Rivals.flat .lalr := by
  have hlexed : Table.Rivals.flat.lexerSpec.build = .ok Letter.lexer := Letter.lexed
  have hcompile : (⟨Table.Rivals.draft, "s"⟩ : Grammar).compile .lalr =
      .error (.conflicts [Table.Rivals.conflict]) := by
    simp only [compile, Table.Rivals.flattened, hlexed, Table.Rivals.conflicts, bind, Except.bind,
      Except.mapError]
  obtain ⟨hrefusal, hknows, hrange⟩ :=
    compile_of_validate Table.Rivals.valid ⟨[], rfl⟩ (by decide) .lalr
  exact ⟨hcompile, hrefusal _ hcompile, hknows, hrange _ Table.Rivals.flattened⟩

end Reparse.Grammar
