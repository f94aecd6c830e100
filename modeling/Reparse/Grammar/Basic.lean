import Reparse.Grammar.Error
import Reparse.Grammar.Expr

/-! # Declaration and validation of grammars -/
namespace Reparse.Grammar
open Lexer (Pattern)

/-- A token declared by name. -/
structure TokenDecl where
  name : String
  pattern : Pattern
  /-- Between matches of one length the highest priority wins. -/
  priority : Int := 0
  /-- The lexer mode it is read in, if not the default one. -/
  mode : Option String := none
  /-- The lexer mode after it, if that changes. -/
  enter : Option String := none
deriving Inhabited

/-- A token named by its own text. -/
def TokenDecl.literal (text : String) : TokenDecl := { name := text, pattern := .literal text }
def TokenDecl.isLiteral (t : TokenDecl) : Bool := t.pattern.literal? == some t.name

def defaultMode : String := "default"

def isHiddenName (name : String) : Bool := name.startsWith hiddenMark

/-- A grammar as declared, before any check. -/
structure Draft where
  name : String
  version : String := "0.0.0"
  tokens : List TokenDecl := []
  rules : List (String × Expr) := []
  /-- Tokens that may stand between any two tokens. -/
  extras : List String := []
  /-- The token that keywords may stand in for. -/
  word : Option String := none
  /-- The first rule, unless another is named. -/
  start : Option String := none
  /-- Groups of rules whose conflicts are settled by order of declaration. -/
  conflicts : List (List String) := []
  modes : List String := [defaultMode]
deriving Inhabited

def Draft.declareMode (d : Draft) (name : String) : Draft :=
  if d.modes.contains name then d else { d with modes := d.modes ++ [name] }

end Grammar

/-- A grammar whose names are all declared and whose tokens are not empty. -/
structure Grammar where
  draft : Grammar.Draft
  start : String
deriving Inhabited

namespace Grammar

/-- A set of names. -/
abbrev Names := Std.HashMap String Unit

namespace Draft

def checkToken (d : Draft) (names : Names) (t : TokenDecl) : Except Error Names := do
  if names.contains t.name then throw (.duplicate t.name)
  if t.pattern.matchesEmpty then throw (.emptyToken t.name)
  match (t.mode.toList ++ t.enter.toList).find? (!d.modes.contains ·) with
  | some mode => throw (.unknownMode t.name mode)
  | none => return names.insert t.name ()

def checkRuleName (names : Names) (rule : String × Expr) : Except Error Names :=
  if names.contains rule.1 then .error (.duplicate rule.1) else .ok (names.insert rule.1 ())

/-- The first name used in a rule must be declared, and so on. -/
def checkRuleBody (names : Names) (rule : String × Expr) : Except Error Unit :=
  match (rule.2.parts.filterMap Expr.symbol?).find? (!names.contains ·) with
  | some symbol => .error (.undefinedSymbol rule.1 symbol)
  | none => .ok ()

def conflictsName : String := "<conflicts>"

/-- Checks tokens, rule names, rule bodies, extras and word, conflict groups and the start rule, in
that order, and reports the first fault. -/
def validate (d : Draft) : Except Error Grammar := do
  let some (first, _) := d.rules.head? | throw .noRules
  let tokens ← d.tokens.foldlM d.checkToken {}
  let names ← d.rules.foldlM checkRuleName tokens
  d.rules.forM (checkRuleBody names)
  match (d.extras ++ d.word.toList).find? (!tokens.contains ·) with
  | some name => throw (.notAToken name)
  | none => pure ()
  let rules : Names := d.rules.foldl (fun s r => s.insert r.1 ()) {}
  match d.conflicts.flatten.find? (!rules.contains ·) with
  | some name => throw (.undefinedSymbol conflictsName name)
  | none => pure ()
  let start := d.start.getD first
  if !rules.contains start then throw (.undefinedStart start)
  if isHiddenName start then throw (.hiddenStart start)
  return ⟨d, start⟩

end Draft
end Grammar
end Reparse
