import Reparse.Tree.Basic

/-! # Walks over trees of any depth -/
namespace Reparse.Tree

/-- An event of a walk. -/
inductive Visit where
  /-- A subtree, with its field in the parent. A node is left again after its children. -/
  | enter (field : Option Field) (t : Tree)
  | leave (t : Tree)

/-- The events of a node's children. -/
def enterChildren (t : Tree) : List Visit := t.labelledChildren.map fun p => .enter p.1 p.2

namespace Visit

/-- More than the number of events that an event stands for. -/
def weight : Visit → Nat
  | .enter _ t => 2 * t.weight
  | .leave _ => 1

def totalWeight : List Visit → Nat
  | [] => 0
  | v :: rest => v.weight + totalWeight rest

private theorem totalWeight_append (a b : List Visit) :
    totalWeight (a ++ b) = totalWeight a + totalWeight b := by
  induction a with
  | nil => simp only [List.nil_append, totalWeight, Nat.zero_add]
  | cons v rest ih => simp only [List.cons_append, totalWeight, ih, Nat.add_assoc]

private theorem totalWeight_enterChildren (t : Tree) :
    totalWeight t.enterChildren = 2 * forestWeight t.children := by
  have key (cs : List (Option Field × Tree)) :
      totalWeight (cs.map fun p => .enter p.1 p.2) = 2 * forestWeight (cs.map (·.2)) := by
    induction cs with
    | nil => rfl
    | cons c rest ih => simp only [List.map_cons, totalWeight, forestWeight, weight, ih]; omega
  rw [enterChildren, key, labelledChildren_snd]

end Visit

/-- Runs `f` over all events in source order. -/
def walkFrom {σ : Type} (f : σ → Visit → σ) : List Visit → σ → σ
  | [], s => s
  | .enter field (.leaf l) :: rest, s => walkFrom f rest (f s (.enter field (.leaf l)))
  | .enter field (.node info below) :: rest, s =>
    let t := Tree.node info below
    walkFrom f (t.enterChildren ++ .leave t :: rest) (f s (.enter field t))
  | .leave t :: rest, s => walkFrom f rest (f s (.leave t))
termination_by visits => Visit.totalWeight visits
decreasing_by
  · simp only [Visit.totalWeight, Visit.weight, weight]; omega
  · have h := Visit.totalWeight_enterChildren (.node info below)
    simp only [children] at h
    simp only [Visit.totalWeight_append, Visit.totalWeight, h, Visit.weight, weight]
    omega
  · simp only [Visit.totalWeight, Visit.weight]; omega

/-- A walk over the whole tree. -/
def walk {σ : Type} (f : σ → Visit → σ) (t : Tree) (s : σ) : σ := walkFrom f [.enter none t] s

/-- A walk over what is below the root. -/
def walkBelow {σ : Type} (f : σ → Visit → σ) (t : Tree) (s : σ) : σ := walkFrom f t.enterChildren s

/-- The leaves in source order. -/
def leaves (t : Tree) : Array Leaf :=
  walk (fun found v => match v with
    | .enter _ (.leaf l) => found.push l
    | _ => found) t #[]

end Reparse.Tree
