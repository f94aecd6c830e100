/-! # Binary search in a row of a given length -/
namespace Reparse.Data

/-- Halves the window `[base, base + size)` down to one index, keeping the upper half unless its
first entry lies above the target. -/
def searchWindow (above : Nat → Bool) (base size : Nat) : Nat :=
  if size ≤ 1 then base
  else
    let middle := base + size / 2
    searchWindow above (if above middle then base else middle) (size - size / 2)
termination_by size

/-- Where `compare` finds the target: `ok i` if entry `i` equals it, else `error i` with the number
of entries below it. `compare i` orders entry `i` against the target. -/
def binarySearch (size : Nat) (compare : Nat → Ordering) : Except Nat Nat :=
  if size = 0 then .error 0
  else
    let base := searchWindow (fun i => compare i == .gt) 0 size
    match compare base with
    | .eq => .ok base
    | .lt => .error (base + 1)
    | .gt => .error base

/-- The number of leading entries with `below`, in a row where those come first. -/
def partitionPoint (size : Nat) (below : Nat → Bool) : Nat :=
  match binarySearch size fun i => if below i then .lt else .gt with
  | .ok i => i
  | .error i => i

/-- The entry with key `k` in a row sorted by key. -/
def lookupSorted {κ α : Type} [Ord κ] (row : Array (κ × α)) (k : κ) : Option α :=
  match binarySearch row.size fun i => match row[i]? with
    | some (key, _) => compare key k
    | none => .gt with
  | .ok i => row[i]?.map (·.2)
  | .error _ => none

end Reparse.Data
