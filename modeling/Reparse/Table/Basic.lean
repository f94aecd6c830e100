import Reparse.Data.Search
import Reparse.Symbol

/-! # Parse tables -/
namespace Reparse
open Data

namespace Table

inductive Action where
  /-- Push the token and go to the state. -/
  | shift (state : Nat)
  /-- Replace the right-hand side of the production by its left-hand side. -/
  | reduce (production : Nat)
  /-- The input is complete. -/
  | accept
deriving DecidableEq, Inhabited

def Action.isShift : Action → Bool
  | .shift _ => true
  | _ => false

/-- What a reduction needs to know: a production has one field, or none, per step. -/
structure ProductionInfo where
  lhs : Kind
  fields : Array (Option Field)
  dynamic : Int
deriving DecidableEq, Inhabited

end Table

/-- Rows are sorted by symbol. A missing action is a syntax error. -/
structure Table where
  actions : Array (Array (Kind × Table.Action))
  gotos : Array (Array (Kind × Nat))
  productions : Array Table.ProductionInfo
deriving DecidableEq, Inhabited

namespace Table

def row (t : Table) (state : Nat) : Array (Kind × Action) := t.actions[state]?.getD #[]
def gotoRow (t : Table) (state : Nat) : Array (Kind × Nat) := t.gotos[state]?.getD #[]
def action? (t : Table) (state : Nat) (terminal : Kind) : Option Action :=
  lookupSorted (t.row state) terminal
def goto? (t : Table) (state : Nat) (nonterminal : Kind) : Option Nat :=
  lookupSorted (t.gotoRow state) nonterminal

/-- Terminals with an action in the state, in order of symbols. -/
def expected (t : Table) (state : Nat) : Array Kind := (t.row state).map (·.1)

def stateCount (t : Table) : Nat := t.actions.size
def actionCount (t : Table) : Nat := t.actions.foldl (fun n row => n + row.size) 0
def gotoCount (t : Table) : Nat := t.gotos.foldl (fun n row => n + row.size) 0

end Table
end Reparse
