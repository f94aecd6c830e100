import Reparse.Lexer.Dfa
import Reparse.Lexer.Token

/-! # Lexers with modes -/
namespace Reparse.Lexer
open Text

/-- A pattern that makes tokens of one kind while the lexer is in one mode. -/
structure Rule where
  kind : Kind
  pattern : Pattern
  /-- Between matches of one length the highest priority wins, and then the first rule. -/
  priority : Int := 0
  mode : Nat := 0
  /-- The mode after the token, if it changes. -/
  nextMode : Option Nat := none

/-- Modes and rules from which a lexer is built. -/
structure Spec where
  modes : Array String := #["default"]
  rules : Array Rule := #[]
  /-- Tokens whose whole text matches are marked as words. -/
  word : Option Pattern := none

inductive BuildError where
  | emptyPattern (kind : Kind)
  | unknownMode (kind : Kind) (mode : Nat)
deriving DecidableEq

def BuildError.message : BuildError → String
  | .emptyPattern kind => s!"token {kind.debugText} has a pattern that matches the empty string"
  | .unknownMode kind mode => s!"token {kind.debugText} refers to undeclared lexer mode {mode}"

/-- A rule of a compiled lexer. -/
structure Outcome where
  kind : Kind
  mode : Nat
  nextMode : Option Nat
deriving DecidableEq, Inhabited

structure Mode where
  name : String
  dfa : Dfa
deriving DecidableEq, Inhabited

end Lexer

structure Lexer where
  modes : Array Lexer.Mode
  rules : Array Lexer.Outcome
  word : Option Lexer.Dfa
deriving DecidableEq, Inhabited

namespace Lexer
open Text

namespace Spec

/-- The number of a mode, which is declared if it is new. -/
def declareMode (spec : Spec) (name : String) : Nat × Spec :=
  match spec.modes.findIdx? (· == name) with
  | some i => (min i maxId, spec)
  | none => (min spec.modes.size maxId, { spec with modes := spec.modes.push name })

def addRule (spec : Spec) (rule : Rule) : Spec := { spec with rules := spec.rules.push rule }

def checkRule (spec : Spec) (rule : Rule) : Except BuildError Unit :=
  if rule.pattern.matchesEmpty then .error (.emptyPattern rule.kind)
  else if rule.mode ≥ spec.modes.size then .error (.unknownMode rule.kind rule.mode)
  else match rule.nextMode with
    | some mode => if mode ≥ spec.modes.size then .error (.unknownMode rule.kind mode) else .ok ()
    | none => .ok ()

/-- Rules by rising rank: high priorities first. -/
def rank (spec : Spec) (rule : Nat) : Int × Nat :=
  (-(spec.rules[rule]?.map (·.priority)).getD 0, rule)

def modeDfa (spec : Spec) (mode : Nat) : Dfa :=
  .ofRules ((spec.rules.toList.zipIdx.filter (·.1.mode == mode)).map fun (r, i) => (r.pattern, i))
    spec.rank

/-- A lexer with one automaton per mode. -/
def build (spec : Spec) : Except BuildError Lexer := do
  spec.rules.toList.forM spec.checkRule
  return {
    modes := spec.modes.mapIdx fun i name => ⟨name, spec.modeDfa i⟩
    rules := spec.rules.map fun r => ⟨r.kind, r.mode, r.nextMode⟩
    word := spec.word.map fun p => .ofRules [(p, 0)] fun r => (0, r) }

end Spec

/-- The token that a match of `rule` makes of the `length` bytes at the cursor. -/
def token (lexer : Lexer) (input : Bytes) (c : Cursor) (rule : Outcome) (length examinedEnd : Nat) :
    Token :=
  let stop := c.offset + length
  let text := input.extract c.offset stop
  { kind := rule.kind
    range := ⟨clamp c.offset, clamp stop⟩
    start := c.point
    stop := c.point.advance text
    mode := c.mode
    nextMode := rule.nextMode.getD c.mode
    lookahead := clamp (examinedEnd - stop)
    flags := { word := lexer.word.any (·.accepts text) } }

/-- The longest match at the cursor; none at the end of input. -/
def next (lexer : Lexer) (input : Bytes) (c : Cursor) : Option (Except Unrecognized Token) := do
  let byte ← input[c.offset]?
  match lexer.modes[c.mode]? with
  | none => some (.error (.atCursor c byte (c.offset + 1)))
  | some mode =>
    let found := mode.dfa.longestMatch input c.offset
    match found.best.bind fun (length, rule) => lexer.rules[rule]?.map (length, ·) with
    | none => some (.error (.atCursor c byte found.examinedEnd))
    | some (length, rule) => some (.ok (lexer.token input c rule length found.examinedEnd))

/-- The token at the cursor, where an unrecognized byte makes a token of its own. -/
def nextToken (lexer : Lexer) (input : Bytes) (c : Cursor) : Option Token :=
  (lexer.next input c).map fun
    | .ok t => t
    | .error u => u.toToken

def tokenizeFrom (lexer : Lexer) (input : Bytes) (c : Cursor) (done : Array Token) : Array Token :=
  match lexer.nextToken input c with
  | none => done
  | some t =>
    if c.offset < t.range.stop ∧ c.offset < input.size then
      tokenizeFrom lexer input (.after t) (done.push t)
    else done
termination_by input.size - c.offset
decreasing_by simp only [Cursor.after]; omega

/-- The tokens of the whole input, which they cover. -/
def tokenize (lexer : Lexer) (input : Bytes) : Array Token := lexer.tokenizeFrom input .start #[]

def modeName? (lexer : Lexer) (mode : Nat) : Option String := lexer.modes[mode]?.map (·.name)

def modeId? (lexer : Lexer) (name : String) : Option Nat :=
  (lexer.modes.findIdx? (·.name == name)).filter (· ≤ maxId)

/-- The mode in which reading continues after a token of `kind` that was read in `mode`. -/
def modeAfter (lexer : Lexer) (kind : Kind) (mode : Nat) : Nat :=
  ((lexer.rules.find? fun r => r.kind == kind && r.mode == mode).bind (·.nextMode)).getD mode

def stateCount (lexer : Lexer) : Nat := lexer.modes.foldl (fun n m => n + m.dfa.states.size) 0

end Lexer
end Reparse
