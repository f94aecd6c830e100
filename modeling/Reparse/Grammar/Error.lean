import Reparse.Lexer.Basic

/-! # Why a grammar is refused -/
namespace Reparse.Grammar

inductive ConflictSort where
  | shiftReduce
  | reduceReduce
deriving DecidableEq

/-- A table cell that no precedence settles, with the competing items as text. -/
structure Conflict where
  state : Nat
  /-- Name of the lookahead symbol. -/
  lookahead : String
  sort : ConflictSort
  items : List String
deriving DecidableEq

inductive Error where
  | noRules
  | undefinedStart (name : String)
  | hiddenStart (name : String)
  | undefinedSymbol (rule symbol : String)
  | duplicate (name : String)
  | notAToken (name : String)
  | unknownMode (token mode : String)
  | emptyToken (name : String)
  | tooManyAlternatives (rule : String) (limit : Nat)
  | tooManySymbols (limit : Nat)
  | lexer (e : Lexer.BuildError)
  | conflicts (list : List Conflict)
deriving DecidableEq

def ConflictSort.text : ConflictSort → String
  | .shiftReduce => "shift/reduce"
  | .reduceReduce => "reduce/reduce"

def quote (s : String) : String := "`" ++ s ++ "`"

/-- Names of hidden rules and tokens begin with this. -/
def hiddenMark : String := "_"

def Conflict.message (c : Conflict) : String :=
  c.items.foldl (fun s item => s ++ "\n    " ++ item)
    s!"  {c.sort.text} conflict in state {c.state} on {quote c.lookahead}:"

def Error.message : Error → String
  | .noRules => "grammar has no rules"
  | .undefinedStart name => s!"start rule {quote name} is not defined"
  | .hiddenStart name =>
    s!"start rule {quote name} must be visible (its name cannot begin with {quote hiddenMark})"
  | .undefinedSymbol rule symbol => s!"rule {quote rule} refers to undefined symbol {quote symbol}"
  | .duplicate name => s!"{quote name} is defined more than once"
  | .notAToken name => s!"{quote name} is used as an extra or word token but is not a token"
  | .unknownMode token mode => s!"token {quote token} refers to undeclared lexer mode {quote mode}"
  | .emptyToken name => s!"token {quote name} matches the empty string"
  | .tooManyAlternatives rule limit =>
    s!"rule {quote rule} expands to more than {limit} alternatives"
  | .tooManySymbols limit => s!"grammar has more than {limit} symbols"
  | .lexer e => e.message
  | .conflicts list =>
    list.foldl (fun s c => s ++ c.message ++ "\n") s!"{list.length} unresolved conflict(s):\n"

end Reparse.Grammar
