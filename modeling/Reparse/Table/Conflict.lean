import Reparse.Table.Basic
import Reparse.Table.Item

/-! # Choice of one action per table cell

Reductions are compared in order of productions, and the one left over is weighed against the shift.
Each comparison tries static precedence, associativity (against a shift only), dynamic precedence
and finally order of declaration, the last only within one rule or one group of expected
conflicts. -/
namespace Reparse.Table
open Grammar

/-- The competing actions of a state under one lookahead. -/
structure Cell where
  lookahead : Kind
  /-- Items with the lookahead after the dot, and the state that they lead to. -/
  shift : Option (Nat × List Item)
  /-- Completed productions, in increasing order. -/
  reduces : List Nat

inductive Choice where
  | shift
  | reduce
deriving DecidableEq

namespace Conflict

def precedenceOf (g : Flat) (production : Nat) : Precedence :=
  (g.productions[production]?.map (·.precedence)).getD {}
def dynamicOf (g : Flat) (production : Nat) : Int :=
  (g.productions[production]?.map (·.dynamic)).getD 0
def lhsOf (g : Flat) (production : Nat) : Kind := (g.productions[production]?.map (·.lhs)).getD .eof
def lengthOf (g : Flat) (production : Nat) : Nat := (g.stepsFrom production 0).length

/-- The better of two reductions, if one is. -/
def preferReduce (g : Flat) (a b : Nat) : Option Nat :=
  let pa := precedenceOf g a
  let pb := precedenceOf g b
  let static := if pa.isDeclared || pb.isDeclared then compare pa.value pb.value else .eq
  match static.then (compare (dynamicOf g a) (dynamicOf g b)) with
  | .gt => some a
  | .lt => some b
  | .eq =>
    if lhsOf g a = lhsOf g b ∨ g.conflictExpected (lhsOf g a) (lhsOf g b) then some (min a b)
    else none

/-- The largest of some values, or zero if there are none. -/
def largest (values : List Int) : Int := values.max?.getD 0

/-- Whether to shift or to reduce, if that is settled. -/
def shiftOrReduce (g : Flat) (items : List Item) (production : Nat) : Option Choice :=
  let steps := items.filterMap fun i => (g.stepsFrom i.production i.dot).head?
  let reduced := precedenceOf g production
  let declared := reduced.isDeclared || steps.any (·.precedence.isDeclared)
  let static : Option Choice :=
    if !declared then none
    else match compare reduced.value (largest (steps.map (·.precedence.value))), reduced.assoc with
      | .gt, _ | .eq, some .left => some .reduce
      | .lt, _ | .eq, some .right => some .shift
      | .eq, _ => none
  let byDynamic : Option Choice :=
    match compare (dynamicOf g production)
        (largest (items.map fun i => dynamicOf g i.production)) with
    | .gt => some .reduce
    | .lt => some .shift
    | .eq => none
  let byOrder : Option Choice :=
    if items.any fun i => g.conflictExpected (lhsOf g i.production) (lhsOf g production) then
      if items.all fun i => production < i.production then some .reduce else some .shift
    else none
  static <|> byDynamic <|> byOrder

def report (g : Flat) (state : Nat) (lookahead : Kind) (sort : ConflictSort) (items : List Item) :
    Grammar.Conflict :=
  ⟨state, g.nameOf lookahead, sort, items.map fun i => g.renderItem i.production i.dot⟩

/-- Production 0 is accepted. -/
def reduceAction (production : Nat) : Action :=
  if production = 0 then .accept else .reduce production

def completed (g : Flat) (production : Nat) : Item := ⟨production, lengthOf g production⟩

/-- The one action of a cell, or a report; a cell without candidates has none. -/
def resolve (g : Flat) (state : Nat) (cell : Cell) : Except Grammar.Conflict (Option Action) :=
  match cell.reduces with
  | [] => .ok (cell.shift.map fun s => .shift s.1)
  | first :: rest =>
    match rest.foldlM (preferReduce g) first with
    | none => .error (report g state cell.lookahead .reduceReduce (cell.reduces.map (completed g)))
    | some winner =>
      match cell.shift with
      | none => .ok (some (reduceAction winner))
      | some (target, items) =>
        match shiftOrReduce g items winner with
        | some .shift => .ok (some (.shift target))
        | some .reduce => .ok (some (reduceAction winner))
        | none =>
          .error (report g state cell.lookahead .shiftReduce (items ++ [completed g winner]))

end Conflict
end Reparse.Table
