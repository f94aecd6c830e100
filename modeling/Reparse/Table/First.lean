import Reparse.Data.BitSet
import Reparse.Grammar.Production

/-! # Nullable symbols and FIRST sets -/
namespace Reparse.Table
open Data Grammar

/-- For every symbol, the terminals that its derivations can begin with and whether it derives
nothing. -/
structure First where
  first : Array BitSet
  nullable : Array Bool
deriving DecidableEq

namespace First

def firstOf (f : First) (k : Kind) : BitSet := f.first[k.id]?.getD .empty
def isNullable (f : First) (k : Kind) : Bool := f.nullable[k.id]?.getD false

/-- The same for a sequence of steps. -/
def ofSteps (f : First) : List Step → BitSet × Bool
  | [] => (.empty, true)
  | s :: rest =>
    if f.isNullable s.symbol then
      let (after, nullable) := f.ofSteps rest
      ((f.firstOf s.symbol).union after, nullable)
    else (f.firstOf s.symbol, false)

/-- Lets `lhs` begin with whatever the steps begin with. -/
def absorb (f : First) (lhs : Kind) : List Step → First
  | [] => { f with nullable := f.nullable.setIfInBounds lhs.id true }
  | s :: rest =>
    let more := f.firstOf s.symbol
    let f := { f with first := f.first.modify lhs.id (·.union more) }
    if f.isNullable s.symbol then absorb f lhs rest else f

def pass (g : Flat) (f : First) : First := g.productions.foldl (fun f p => f.absorb p.lhs p.steps) f

/-- Passes until nothing changes; every pass but the last adds something, so `fuel` passes are
enough. -/
def saturate (g : Flat) : (fuel : Nat) → First → First
  | 0, f => f
  | fuel + 1, f =>
    let next := pass g f
    if next = f then f else saturate g fuel next

/-- Only terminals begin with themselves. -/
def start (g : Flat) : First where
  first := (Array.range g.symbols.size).map fun i =>
    if i < g.terminalCount then .singleton i else .empty
  nullable := Array.replicate g.symbols.size false

def compute (g : Flat) : First := saturate g (g.symbols.size * (g.terminalCount + 1) + 1) (start g)

end First
end Reparse.Table
