import Reparse.Grammar.Production
import Std.Data.HashSet

/-! # From rule bodies to flat productions

Choices and optional parts become alternatives, repetitions become hidden left-recursive rules, and
fields and precedences move down to single steps. -/
namespace Reparse.Grammar
open Lexer (Pattern)

namespace Lowering

/-- A rule expands to no more alternatives than this. -/
def maxAlternatives : Nat := 4096

/-- What the wrappers around an expression say about its steps. -/
structure Context where
  precedence : Precedence := {}
  field : Option Field := none
  dynamic : Option Int := none

structure Alternative where
  steps : List Step
  dynamic : Option Int
  /-- The precedence of the production if there are no steps. -/
  emptyPrecedence : Precedence
deriving Inhabited

namespace Alternative

def empty (c : Context) : Alternative := ⟨[], c.dynamic, c.precedence⟩
def single (symbol : Kind) (c : Context) : Alternative :=
  ⟨[⟨symbol, c.field, c.precedence⟩], c.dynamic, c.precedence⟩

/-- The larger of two dynamic precedences, where one may be missing. -/
def maxDynamic : Option Int → Option Int → Option Int
  | some a, some b => some (max a b)
  | some a, none => some a
  | none, b => b

def append (a b : Alternative) : Alternative :=
  ⟨a.steps ++ b.steps, maxDynamic a.dynamic b.dynamic, a.emptyPrecedence⟩

def toProduction (a : Alternative) (lhs : Kind) : Production where
  lhs := lhs
  steps := a.steps
  precedence := (a.steps.getLast?.map (·.precedence)).getD a.emptyPrecedence
  dynamic := a.dynamic.getD 0

/-- Drops alternatives whose steps occurred before. -/
def distinct (seen : Std.HashSet (List Step)) : List Alternative → List Alternative
  | [] => []
  | a :: rest =>
    if seen.contains a.steps then distinct seen rest else a :: distinct (seen.insert a.steps) rest

end Alternative

/-- The symbols that names, literals, unnamed patterns and fields stand for. -/
structure Scope where
  names : Std.HashMap String Kind := {}
  literals : Std.HashMap String Kind := {}
  patterns : Std.HashMap Pattern Kind := {}
  fields : Std.HashMap String Field := {}
  /-- Named in errors. -/
  start : String

def Scope.lookup (scope : Scope) (name : String) : Except Error Kind :=
  match scope.names[name]? with
  | some k => .ok k
  | none => .error (.undefinedSymbol scope.start name)

structure State where
  symbols : Array SymbolInfo := #[]
  productions : Array Production := #[]
  /-- The rule that is being lowered, and how many repetitions it had so far. -/
  rule : Kind := .eof
  repeats : Nat := 0

namespace State

def addSymbol (st : State) (info : SymbolInfo) : Kind × State :=
  (.ofNat st.symbols.size, { st with symbols := st.symbols.push info })

def addProduction (st : State) (p : Production) : State :=
  { st with productions := st.productions.push p }

def addAlternatives (st : State) (lhs : Kind) (alts : List Alternative) : State :=
  (Alternative.distinct {} alts).foldl (fun st a => st.addProduction (a.toProduction lhs)) st

def ruleName (st : State) : String := (st.symbols[st.rule.id]?.map (·.name)).getD "?"

def tooMany (st : State) : Error := .tooManyAlternatives st.ruleName maxAlternatives

/-- A new hidden rule for a repetition in the current rule. -/
def beginRepeat (st : State) : Kind × State :=
  let info : SymbolInfo := ⟨s!"{st.ruleName}_repeat{st.repeats + 1}", false, false, true⟩
  (.ofNat st.symbols.size, { st with symbols := st.symbols.push info, repeats := st.repeats + 1 })

/-- Defines `aux` as one or more of the alternatives, which are left out if empty and instead make
the whole optional. -/
def endRepeat (st : State) (aux : Kind) (c : Context) (alts : List Alternative) :
    List Alternative × State :=
  let nonempty := alts.filter (!·.steps.isEmpty)
  let again := nonempty.map fun a => { a with steps := ⟨aux, none, c.precedence⟩ :: a.steps }
  let whole := Alternative.single aux { c with field := none }
  (whole :: if alts.any (·.steps.isEmpty) then [.empty c] else [],
    st.addAlternatives aux (again ++ nonempty))

end State

mutual
/-- The alternatives of an expression. Repetitions add hidden rules. -/
def lower (scope : Scope) : Expr → Context → State → Except Error (List Alternative × State)
  | .blank, c, st => .ok ([.empty c], st)
  | .text literal, c, st => .ok ([.single (scope.literals[literal]?.getD .error) c], st)
  | .symbol name, c, st => do return ([.single (← scope.lookup name) c], st)
  | .pattern p, c, st => .ok ([.single (scope.patterns[p]?.getD .error) c], st)
  | .seq items, c, st => lowerSeq scope items c [.empty c] st
  | .choice items, c, st => lowerChoice scope items c st
  | .optional body, c, st => do
    let (alts, st) ← lower scope body c st
    return (alts ++ [.empty c], st)
  | .repeated1 body, c, st => do
    let (aux, st) := st.beginRepeat
    let (alts, st) ← lower scope body c st
    return st.endRepeat aux c alts
  | .repeated body, c, st => do
    let (aux, st) := st.beginRepeat
    let (alts, st) ← lower scope body c st
    let (alts, st) := st.endRepeat aux c alts
    return (if alts.any (·.steps.isEmpty) then alts else alts ++ [.empty c], st)
  | .field name body, c, st => lower scope body { c with field := scope.fields[name]? } st
  | .prec p body, c, st => lower scope body { c with precedence := p } st
  | .dynamic value body, c, st => lower scope body { c with dynamic := some value } st

/-- Every alternative so far followed by every alternative of the next item. -/
def lowerSeq (scope : Scope) : List Expr → Context → List Alternative → State →
    Except Error (List Alternative × State)
  | [], _, acc, st => .ok (acc, st)
  | e :: rest, c, acc, st => do
    let (alts, st) ← lower scope e c st
    if acc.length * alts.length > maxAlternatives then throw st.tooMany
    lowerSeq scope rest c (acc.flatMap fun a => alts.map a.append) st

def lowerChoice (scope : Scope) :
    List Expr → Context → State → Except Error (List Alternative × State)
  | [], _, st => .ok ([], st)
  | e :: rest, c, st => do
    let (alts, st) ← lower scope e c st
    let (others, st) ← lowerChoice scope rest c st
    return (alts ++ others, st)
end

/-- Lowers one declared rule. -/
def lowerRule (scope : Scope) (st : State) (rule : (String × Expr) × Kind) :
    Except Error State := do
  let (alts, st) ← lower scope rule.1.2 {} { st with rule := rule.2, repeats := 0 }
  if alts.length > maxAlternatives then throw (.tooManyAlternatives rule.1.1 maxAlternatives)
  return st.addAlternatives rule.2 alts

/-- Terminals for literals, then unnamed patterns, then declared tokens: on equal matches a literal
comes before a named pattern. -/
structure Terminals where
  scope : Scope
  symbols : Array SymbolInfo
  lexical : List LexicalToken := []

namespace Terminals

def addLiteral (t : Terminals) (literal : String) : Terminals :=
  let kind := Kind.ofNat t.symbols.size
  { scope := { t.scope with literals := t.scope.literals.insert literal kind }
    symbols := t.symbols.push ⟨literal, true, true, false⟩
    lexical := { kind, pattern := .literal literal } :: t.lexical }

def addPattern (t : Terminals) (p : Pattern × Nat) : Terminals :=
  let kind := Kind.ofNat t.symbols.size
  { scope := { t.scope with patterns := t.scope.patterns.insert p.1 kind }
    symbols := t.symbols.push ⟨s!"_token{p.2 + 1}", true, false, false⟩
    lexical := { kind, pattern := p.1 } :: t.lexical }

/-- The number of a declared mode. -/
def modeNumber (modes : List String) (name : String) : Nat :=
  let i := (modes.findIdx? (· == name)).getD 0
  if i ≤ maxId then i else 0

def addToken (modes : List String) (t : Terminals) (token : TokenDecl) : Terminals :=
  let kind := Kind.ofNat t.symbols.size
  let isLiteral := token.isLiteral
  { scope := { t.scope with
      names := t.scope.names.insert token.name kind
      literals := if isLiteral then t.scope.literals.insert token.name kind else t.scope.literals }
    symbols := t.symbols.push ⟨token.name, true, !isHiddenName token.name, !isLiteral⟩
    lexical := { kind, pattern := token.pattern, priority := token.priority
                 mode := modeNumber modes (token.mode.getD defaultMode)
                 nextMode := token.enter.map (modeNumber modes) } :: t.lexical }

end Terminals

def acceptName : String := "$accept"

/-- End of input and the error symbol head every symbol table. -/
def builtinSymbols : Array SymbolInfo := #[⟨"end", true, false, false⟩, ⟨"ERROR", true, true, true⟩]

def addRuleName (acc : Scope × Array SymbolInfo × Array Kind) (rule : String × Expr) :
    Scope × Array SymbolInfo × Array Kind :=
  let (scope, symbols, kinds) := acc
  let kind := Kind.ofNat symbols.size
  ({ scope with names := scope.names.insert rule.1 kind },
    symbols.push ⟨rule.1, false, !isHiddenName rule.1, true⟩, kinds.push kind)

/-- Names in increasing order without repetition. -/
def sortNames (names : List String) : List String :=
  ((Std.HashSet.ofList names).toList).mergeSort fun a b => a ≤ b

/-- The productions of each of `count` symbols. -/
def indexByLhs (count : Nat) (productions : Array Production) : Array (Array Nat) :=
  (productions.zipIdx.foldl (fun index (p, i) => index.modify p.lhs.id (·.push i))
    (Array.replicate count #[]))

end Lowering

open Lowering

/-- The flat form of a grammar. -/
def flatten (g : Grammar) : Except Error Flat := do
  let d := g.draft
  let parts := d.rules.flatMap fun r => r.2.parts
  let declared : Std.HashSet String := .ofList ((d.tokens.filter (·.isLiteral)).map (·.name))
  let literals := ((parts.filterMap Expr.text?).filter (!declared.contains ·)).eraseDups
  let patterns := (parts.filterMap Expr.pattern?).eraseDups
  let fields := sortNames (parts.filterMap Expr.field?)
  let terminals : Terminals := { scope := { start := g.start }, symbols := builtinSymbols }
  let terminals := literals.foldl Terminals.addLiteral terminals
  let terminals := patterns.zipIdx.foldl Terminals.addPattern terminals
  let terminals := d.tokens.foldl (Terminals.addToken d.modes) terminals
  let terminalCount := terminals.symbols.size
  let (scope, symbols, rules) := d.rules.foldl addRuleName (terminals.scope, terminals.symbols, #[])
  let scope :=
    { scope with fields := fields.zipIdx.foldl (fun m (f, i) => m.insert f (.ofNat i)) {} }
  let (accept, st) := State.addSymbol { symbols } ⟨acceptName, false, false, true⟩
  let start ← scope.lookup g.start
  let st := { st with productions := #[{ lhs := accept, steps := [{ symbol := start }] }] }
  let st ← (d.rules.zip rules.toList).foldlM (lowerRule scope) st
  if st.symbols.size > maxId then throw (.tooManySymbols maxId)
  return {
    name := d.name
    version := d.version
    symbols := st.symbols
    terminalCount
    productions := st.productions
    byLhs := indexByLhs st.symbols.size st.productions
    start
    fields := fields.toArray
    extras := (← d.extras.mapM scope.lookup).toArray
    word := ← d.word.mapM scope.lookup
    wordPattern := d.word.bind fun name => (d.tokens.find? (·.name == name)).map (·.pattern)
    conflictGroups := ← d.conflicts.mapM fun group => group.mapM scope.lookup
    declaredRules := rules.toList
    lexical := terminals.lexical.reverse
    modes := d.modes }

end Reparse.Grammar
