import Reparse.Data.Reach
import Reparse.Lexer.Pattern

/-! # Nondeterministic automata of patterns -/
namespace Reparse.Lexer
open Data

/-- A step from one state to another, over a byte of the label or over nothing. -/
structure Edge where
  source : Nat
  label : Option (UInt8 × UInt8)
  target : Nat
deriving DecidableEq

/-- Edges that lead from a start state to a stop state, with new states numbered from a fresh
number; given together with the next fresh number. -/
abbrev Wiring := (start stop fresh : Nat) → Nat × List Edge

namespace Pattern

def wireBytes : List UInt8 → Wiring
  | [], start, stop, fresh => (fresh, [⟨start, none, stop⟩])
  | [b], start, stop, fresh => (fresh, [⟨start, some (b, b), stop⟩])
  | b :: rest, start, stop, fresh =>
    let (next, edges) := wireBytes rest fresh stop (fresh + 1)
    (next, ⟨start, some (b, b), fresh⟩ :: edges)

/-- `n` copies of `w` one after another and then `tail`. -/
def wireCopies (w tail : Wiring) : Nat → Wiring
  | 0 => tail
  | n + 1 => fun start stop fresh =>
    let (fresh₁, edges₁) := w start fresh (fresh + 1)
    let (fresh₂, edges₂) := wireCopies w tail n fresh stop fresh₁
    (fresh₂, edges₁ ++ edges₂)

/-- Up to `n` copies of `w`. -/
def wireAtMost (w : Wiring) : Nat → Wiring
  | 0 => fun start stop fresh => (fresh, [⟨start, none, stop⟩])
  | n + 1 => fun start stop fresh =>
    let (fresh₁, edges₁) := w start fresh (fresh + 1)
    let (fresh₂, edges₂) := wireAtMost w n fresh stop fresh₁
    (fresh₂, ⟨start, none, stop⟩ :: (edges₁ ++ edges₂))

/-- Any number of copies of `w`. -/
def wireLoop (w : Wiring) : Wiring := fun start stop fresh =>
  let (next, edges) := w fresh (fresh + 1) (fresh + 2)
  (next, ⟨start, none, fresh⟩ :: ⟨start, none, stop⟩ :: ⟨fresh + 1, none, fresh⟩ ::
    ⟨fresh + 1, none, stop⟩ :: edges)

mutual
/-- An automaton for the pattern. No edge enters its start state or leaves its stop state. -/
def wire : Pattern → Wiring
  | .literal text => wireBytes (Text.ofString text).toList
  | .oneOf set => fun start stop fresh => (fresh, set.ranges.map fun r => ⟨start, some r, stop⟩)
  | .seq items => wireSeq items
  | .alt items => wireAlt items
  | .repeated item min max => wireCopies (wire item)
      (match max with
        | none => wireLoop (wire item)
        | some max => wireAtMost (wire item) (max - min)) min

def wireSeq : List Pattern → Wiring
  | [] => fun start stop fresh => (fresh, [⟨start, none, stop⟩])
  | p :: rest => fun start stop fresh =>
    let (fresh₁, edges₁) := wire p start fresh (fresh + 1)
    let (fresh₂, edges₂) := wireSeq rest fresh stop fresh₁
    (fresh₂, edges₁ ++ edges₂)

def wireAlt : List Pattern → Wiring
  | [] => fun _ _ fresh => (fresh, [])
  | p :: rest => fun start stop fresh =>
    let (fresh₁, edges₁) := wire p fresh (fresh + 1) (fresh + 2)
    let (fresh₂, edges₂) := wireAlt rest start stop fresh₁
    (fresh₂, ⟨start, none, fresh⟩ :: ⟨fresh + 1, none, stop⟩ :: (edges₁ ++ edges₂))
end

end Pattern

/-- What leaves a state, and the rule it accepts. -/
structure NfaState where
  silent : List Nat := []
  moves : List (UInt8 × UInt8 × Nat) := []
  accept : Option Nat := none
deriving Inhabited

/-- An automaton whose runs start at state 0. -/
abbrev Nfa := Array NfaState

namespace Nfa

def addEdge (nfa : Nfa) (e : Edge) : Nfa :=
  nfa.modify e.source fun s => match e.label with
    | none => { s with silent := e.target :: s.silent }
    | some (lo, hi) => { s with moves := (lo, hi, e.target) :: s.moves }

/-- Wires all rules side by side: the edges, the accepting states and the number of states. -/
def wireRules (rules : List (Pattern × Nat)) (fresh : Nat) : Nat × List Edge × List (Nat × Nat) :=
  match rules with
  | [] => (fresh, [], [])
  | (p, rule) :: rest =>
    let (fresh₁, edges₁) := p.wire fresh (fresh + 1) (fresh + 2)
    let (fresh₂, edges₂, accepts) := wireRules rest fresh₁
    (fresh₂, ⟨0, none, fresh⟩ :: (edges₁ ++ edges₂), (fresh + 1, rule) :: accepts)

def ofRules (rules : List (Pattern × Nat)) : Nfa :=
  let (size, edges, accepts) := wireRules rules 1
  accepts.foldl (fun nfa a => nfa.modify a.1 fun s => { s with accept := some a.2 })
    (edges.foldl addEdge (Array.replicate size {}))

/-- The states reachable from `seeds` over silent edges. -/
def closure (nfa : Nfa) (seeds : List Nat) : Found :=
  reach nfa.size (fun s => (nfa[s]?.map (·.silent)).getD []) seeds

end Nfa
end Reparse.Lexer
