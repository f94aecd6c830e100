import Reparse.Lexer.Pattern

/-! # Rule bodies -/
namespace Reparse.Grammar
open Lexer (Pattern)

/-- Settles shift/reduce conflicts between equal precedences. -/
inductive Assoc where
  /-- Reduce. -/
  | left
  /-- Shift. -/
  | right
  /-- Leave the conflict to later criteria. -/
  | neither
deriving DecidableEq, Hashable

/-- The precedence of a step. -/
structure Precedence where
  level : Option Int := none
  assoc : Option Assoc := none
deriving DecidableEq, Hashable, Inhabited

/-- An undeclared level counts as zero. -/
def Precedence.value (p : Precedence) : Int := p.level.getD 0
def Precedence.isDeclared (p : Precedence) : Bool := p.level.isSome || p.assoc.isSome

inductive Expr where
  | blank
  /-- A literal token. -/
  | text (literal : String)
  /-- A rule or a declared token, by name. -/
  | symbol (name : String)
  /-- A token without a name. -/
  | pattern (p : Pattern)
  | seq (items : List Expr)
  /-- Earlier alternatives get lower production numbers. -/
  | choice (items : List Expr)
  | repeated (body : Expr)
  | repeated1 (body : Expr)
  | optional (body : Expr)
  | field (name : String) (body : Expr)
  | prec (precedence : Precedence) (body : Expr)
  | dynamic (value : Int) (body : Expr)
deriving Inhabited

namespace Expr

def keywords (words : List String) : Expr := .choice (words.map .text)
def precLevel (level : Int) (e : Expr) : Expr := .prec ⟨some level, none⟩ e
def precLeft (level : Int) (e : Expr) : Expr := .prec ⟨some level, some .left⟩ e
def precRight (level : Int) (e : Expr) : Expr := .prec ⟨some level, some .right⟩ e

/-- One or more of `item` with `separator` between them. -/
def sepBy1 (item separator : Expr) : Expr := .seq [item, .repeated (.seq [separator, item])]
/-- Any number of `item` with `separator` between them. -/
def sepBy (item separator : Expr) : Expr := .optional (sepBy1 item separator)

mutual
/-- The expression and all its parts, each before its own parts and from left to right. -/
def parts : Expr → List Expr
  | .seq items => .seq items :: listParts items
  | .choice items => .choice items :: listParts items
  | .repeated body => .repeated body :: parts body
  | .repeated1 body => .repeated1 body :: parts body
  | .optional body => .optional body :: parts body
  | .field name body => .field name body :: parts body
  | .prec p body => .prec p body :: parts body
  | .dynamic value body => .dynamic value body :: parts body
  | e => [e]

def listParts : List Expr → List Expr
  | [] => []
  | e :: rest => parts e ++ listParts rest
end

def text? : Expr → Option String
  | .text literal => some literal
  | _ => none

def symbol? : Expr → Option String
  | .symbol name => some name
  | _ => none

def pattern? : Expr → Option Pattern
  | .pattern p => some p
  | _ => none

def field? : Expr → Option String
  | .field name _ => some name
  | _ => none

end Expr
end Reparse.Grammar
