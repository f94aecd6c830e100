import Reparse.Table.Item
import Std.Data.HashMap

/-! # LR(1) and LALR(1) automata -/
namespace Reparse.Table
open Data Grammar

/-- Whether states with equal cores are one state. -/
inductive Mode where
  | lalr
  | canonical
deriving DecidableEq, Inhabited

/-- A state, with its transitions in order of symbols. -/
structure State where
  kernel : Items
  transitions : Array (Kind × Nat) := #[]
deriving Inhabited

/-- What identifies a state: in LALR mode its cores, otherwise its whole kernel. -/
def Mode.key (mode : Mode) (kernel : Items) : Items := match mode with
  | .lalr => kernel.map fun e => (e.1, .empty)
  | .canonical => kernel

/-- An automaton under construction. States are numbered in order of discovery and visited first
come, first served; a state whose lookaheads grew is visited again. -/
structure Construction where
  states : Array State
  index : Std.HashMap Items Nat
  queue : Array Nat
  /-- How many entries of the queue have been visited. -/
  visited : Nat := 0
  /-- Whether a state waits in the queue. -/
  waiting : Array Bool

namespace Construction

def start (mode : Mode) : Construction :=
  let kernel : Items := [(⟨0, 0⟩, .singleton Kind.eof.id)]
  { states := #[{ kernel }], index := ({} : Std.HashMap Items Nat).insert (mode.key kernel) 0
    queue := #[0], waiting := #[true] }

def enqueue (c : Construction) (id : Nat) : Construction :=
  if c.waiting[id]?.getD false then c
  else { c with queue := c.queue.push id, waiting := c.waiting.setIfInBounds id true }

def addState (c : Construction) (key kernel : Items) : Construction :=
  { c with states := c.states.push { kernel }, index := c.index.insert key c.states.size
           queue := c.queue.push c.states.size, waiting := c.waiting.push true }

/-- Adds lookaheads to a known state. -/
def grow (c : Construction) (id : Nat) (kernel : Items) : Construction :=
  let old := (c.states[id]?.map (·.kernel)).getD []
  let merged := Items.unite old kernel
  if merged = old then c
  else enqueue { c with states := c.states.modify id fun s => { s with kernel := merged } } id

/-- The state of a kernel, which is added or grown as needed. -/
def target (mode : Mode) (c : Construction) (kernel : Items) : Nat × Construction :=
  let key := mode.key kernel
  match c.index[key]? with
  | some id => (id, if mode = .lalr then c.grow id kernel else c)
  | none => (c.states.size, c.addState key kernel)

def visit (g : Flat) (f : First) (mode : Mode) (c : Construction) (id : Nat) : Construction :=
  let c := { c with visited := c.visited + 1, waiting := c.waiting.setIfInBounds id false }
  let kernel := (c.states[id]?.map (·.kernel)).getD []
  let (transitions, c) :=
    (Items.successors g (Items.closure g f kernel)).foldl (fun (row, c) (symbol, kernel) =>
    let (next, c) := c.target mode kernel
    (row.push (symbol, next), c)) (#[], c)
  { c with states := c.states.modify id fun s => { s with transitions } }

def run (g : Flat) (f : First) (mode : Mode) : (fuel : Nat) → Construction → Construction
  | 0, c => c
  | fuel + 1, c => match c.queue[c.visited]? with
    | none => c
    | some id => run g f mode fuel (c.visit g f mode id)

end Construction

/-- More visits than any construction makes: a kernel is a choice of lookaheads, or absence, for
each place in each production, and a state is visited again only after one of its lookaheads
grew. -/
def visitBound (g : Flat) (mode : Mode) : Nat :=
  let places := g.productions.foldl (fun n p => n + p.steps.length + 1) 0
  let choices := match mode with
    | .lalr => places
    | .canonical => places * (g.terminalCount + 1)
  (1 <<< choices) * (places * g.terminalCount + 1) + 1

/-- The states of the automaton. -/
def automaton (g : Flat) (f : First) (mode : Mode) : Array State :=
  (Construction.run g f mode (visitBound g mode) (.start mode)).states

end Reparse.Table
