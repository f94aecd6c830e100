import Reparse.Data.Reach
import Reparse.Table.Automaton
import Reparse.Table.Conflict

/-! # Tables from grammars -/
namespace Reparse.Table
open Data Grammar

/-- What an item wants a cell to hold. -/
inductive Candidate where
  | shift (item : Item)
  | reduce (production : Nat)

namespace Candidate

def item? : Candidate → Option Item
  | .shift item => some item
  | .reduce _ => none

def production? : Candidate → Option Nat
  | .shift _ => none
  | .reduce production => some production

/-- The cells that an item wants to fill. -/
def ofEntry (g : Flat) (entry : Item × BitSet) : List (Kind × Candidate) :=
  match g.stepsFrom entry.1.production entry.1.dot with
  | [] => entry.2.toList.map fun t => (⟨t⟩, .reduce entry.1.production)
  | s :: _ => if g.isTerminal s.symbol then [(s.symbol, .shift entry.1)] else []

end Candidate

/-- The cells of a state, in order of lookaheads. -/
def cells (g : Flat) (f : First) (state : State) : List Cell :=
  (groupByKind ((Items.closure g f state.kernel).flatMap (Candidate.ofEntry g))).map
    fun (lookahead, candidates) =>
    let items := candidates.filterMap Candidate.item?
    { lookahead
      shift :=
        if items.isEmpty then none else (lookupSorted state.transitions lookahead).map (·, items)
      reduces := candidates.filterMap Candidate.production? }

/-- The actions of a state, and the conflicts in its cells. -/
def resolveRow (g : Flat) (id : Nat) (cells : List Cell) : Array (Kind × Action) × Array Conflict :=
  cells.foldl (fun (row, conflicts) cell => match Conflict.resolve g id cell with
    | .ok (some action) => (row.push (cell.lookahead, action), conflicts)
    | .ok none => (row, conflicts)
    | .error conflict => (row, conflicts.push conflict)) (#[], #[])

/-- The table of a grammar. If any cell is in conflict, all conflicts are reported and there is no
table. -/
def build (g : Flat) (mode : Mode) : Except Grammar.Error Table :=
  let f := First.compute g
  let states := automaton g f mode
  let (actions, conflicts) := states.zipIdx.foldl (fun (actions, conflicts) (state, id) =>
    let (row, found) := resolveRow g id (cells g f state)
    (actions.push row, conflicts ++ found)) (#[], #[])
  if conflicts.isEmpty then
    .ok {
      actions
      gotos := states.map fun s => s.transitions.filter fun t => !g.isTerminal t.1
      productions :=
        g.productions.map fun p => ⟨p.lhs, (p.steps.map (·.field)).toArray, p.dynamic⟩ }
  else .error (.conflicts conflicts.toList)

/-- Symbols on the right-hand sides of a symbol. -/
def usedBy (g : Flat) (symbol : Nat) : List Nat :=
  (g.productionsOf ⟨symbol⟩).toList.flatMap fun p => (g.stepsFrom p 0).map (·.symbol.id)

/-- Declared rules that the start rule does not reach. -/
def unreachableRules (g : Flat) : List String :=
  let reached := (reach g.symbols.size (usedBy g) [g.start.id]).set
  (g.declaredRules.filter fun k => !reached.contains k.id).map g.nameOf

end Reparse.Table
