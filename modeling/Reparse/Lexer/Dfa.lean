import Reparse.Data.Search
import Reparse.Lexer.Nfa
import Std.Data.HashMap

/-! # Deterministic automata over bytes, and their longest matches -/
namespace Reparse.Lexer
open Data Text

structure Transition where
  lo : UInt8
  hi : UInt8
  target : Nat
deriving DecidableEq, Inhabited

/-- Transitions are sorted by byte and do not overlap. -/
structure DfaState where
  transitions : Array Transition := #[]
  /-- The rule that wins if the run stops here. -/
  accept : Option Nat := none
deriving DecidableEq, Inhabited

/-- An automaton that starts in state 0. -/
structure Dfa where
  states : Array DfaState
deriving DecidableEq, Inhabited

/-- What a run from some position found. -/
structure DfaMatch where
  /-- Length and rule of the longest accepted text. -/
  best : Option (Nat × Nat)
  /-- One past the last byte read; noticing the end of input counts as reading a byte. -/
  examinedEnd : Nat

namespace Dfa

def step (dfa : Dfa) (state : Nat) (b : UInt8) : Option Nat := do
  let transitions := (← dfa.states[state]?).transitions
  let i := partitionPoint transitions.size fun i => match transitions[i]? with
    | some t => t.hi < b
    | none => false
  let t ← transitions[i]?
  if t.lo ≤ b then some t.target else none

def accept (dfa : Dfa) (state : Nat) : Option Nat := dfa.states[state]?.bind (·.accept)

def matchFrom (dfa : Dfa) (input : Bytes) (start state : Nat) (best : Option (Nat × Nat))
    (i : Nat) : DfaMatch :=
  if h : i < input.size then
    match dfa.step state input[i] with
    | none => ⟨best, i + 1⟩
    | some next =>
      let best := match dfa.accept next with
        | some rule => some (i + 1 - start, rule)
        | none => best
      matchFrom dfa input start next best (i + 1)
  else ⟨best, input.size + 1⟩

/-- The longest nonempty match from `start`. -/
def longestMatch (dfa : Dfa) (input : Bytes) (start : Nat) : DfaMatch :=
  dfa.matchFrom input start 0 none start

/-- Whether the automaton accepts exactly `text`, which must not be empty. -/
def accepts (dfa : Dfa) (text : Bytes) : Bool :=
  match text.foldl (fun state b => state.bind (dfa.step · b)) (some 0) with
  | some state => !text.isEmpty && (dfa.accept state).isSome
  | none => false

/-- Subsets found so far, in order of discovery, and the number of each. -/
structure Discovery where
  found : Array Found
  index : Std.HashMap BitSet Nat

namespace Discovery

def start (s : Found) : Discovery := ⟨#[s], ({} : Std.HashMap BitSet Nat).insert s.set 0⟩

/-- The number of a subset, which becomes the next one if the subset is new. -/
def number (d : Discovery) (s : Found) : Nat × Discovery :=
  match d.index[s.set]? with
  | some i => (i, d)
  | none => (d.found.size, ⟨d.found.push s, d.index.insert s.set d.found.size⟩)

end Discovery

/-- Adds a transition on top, joining it with the last one if they touch and agree. -/
def joinTransition (row : Array Transition) (t : Transition) : Array Transition :=
  match row.back? with
  | some last =>
    if last.target = t.target ∧ last.hi.toNat + 1 = t.lo.toNat then
      row.pop.push { last with hi := t.hi }
    else row.push t
  | none => row.push t

/-- Bytes at which some move starts, and those after which some move ends. -/
def boundaries (moves : List (UInt8 × UInt8 × Nat)) : List Nat :=
  (moves.foldl (fun s m => (s.insert m.1.toNat).insert (m.2.1.toNat + 1)) BitSet.empty).toList

/-- The row of a subset. Between two boundaries every byte leads to the same subset. -/
def row (nfa : Nfa) (d : Discovery) (s : Found) : Array Transition × Discovery :=
  let moves := s.members.flatMap fun i => (nfa[i]?.map (·.moves)).getD []
  let bounds := boundaries moves
  (bounds.zip bounds.tail).foldl (fun (acc, d) (lo, next) =>
    match (moves.filter fun m => m.1.toNat ≤ lo ∧ next ≤ m.2.1.toNat + 1).map (·.2.2) with
    | [] => (acc, d)
    | targets =>
      let (target, d) := d.number (nfa.closure targets)
      (joinTransition acc ⟨lo.toUInt8, (next - 1).toUInt8, target⟩, d)) (#[], d)

/-- The rule with the least rank among those accepted in the subset. -/
def winner (nfa : Nfa) (rank : Nat → Int × Nat) (s : Found) : Option Nat :=
  let rules := s.members.filterMap fun i => nfa[i]?.bind (·.accept)
  rules.foldl (fun best rule => match best with
    | none => some rule
    | some old =>
      if (rank rule).1 < (rank old).1 ∨
          ((rank rule).1 = (rank old).1 ∧ (rank rule).2 < (rank old).2) then
        some rule
      else best) none

/-- Completes the rows of the subsets from number `states.size` on. There are fewer subsets than
`fuel`. -/
def explore (nfa : Nfa) (rank : Nat → Int × Nat) :
    (fuel : Nat) → Discovery → Array DfaState → Array DfaState
  | 0, _, states => states
  | fuel + 1, d, states =>
    match d.found[states.size]? with
    | none => states
    | some s =>
      let (transitions, d) := row nfa d s
      explore nfa rank fuel d (states.push ⟨transitions, winner nfa rank s⟩)

/-- An automaton for patterns numbered by rule. Where several accept, the least rank wins. -/
def ofRules (rules : List (Pattern × Nat)) (rank : Nat → Int × Nat) : Dfa :=
  let nfa := Nfa.ofRules rules
  ⟨explore nfa rank ((1 <<< nfa.size) + 1) (.start (nfa.closure [0])) #[]⟩

end Dfa
end Reparse.Lexer
