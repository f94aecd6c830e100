import Reparse.Data.BitSet

/-! # Reachability in a graph on the numbers below a bound -/
namespace Reparse.Data

/-- A set of numbers, with its members also listed. -/
structure Found where
  set : BitSet
  members : List Nat
deriving Inhabited

/-- Adds everything below `n` that the stack leads to. -/
def reachFrom (n : Nat) (next : Nat → List Nat) (found : Found) : List Nat → Found
  | [] => found
  | s :: stack =>
    if _h : s < n ∧ s ∉ found.set then
      reachFrom n next ⟨found.set.insert s, s :: found.members⟩ (next s ++ stack)
    else reachFrom n next found stack
termination_by stack => (found.set.missing n, stack.length)
decreasing_by
  · exact Prod.Lex.left _ _ (BitSet.missing_insert_lt _h.1 _h.2)
  · exact Prod.Lex.right _ (by simp)

/-- Everything below `n` that is reachable from `seeds`. -/
def reach (n : Nat) (next : Nat → List Nat) (seeds : List Nat) : Found :=
  reachFrom n next ⟨.empty, []⟩ seeds

end Reparse.Data
