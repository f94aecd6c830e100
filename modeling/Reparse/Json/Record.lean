import Reparse.Json.Parser

/-! # Typed parts of JSON documents -/
namespace Reparse.Json

def ofBool (b : Bool) : Value := .bool b
def ofOption {α : Type} (write : α → Value) : Option α → Value
  | some a => write a
  | none => .null
def ofArray {α : Type} (write : α → Value) (xs : Array α) : Value := .array (xs.toList.map write)
def ofPair {α β : Type} (write : α → Value) (write' : β → Value) (p : α × β) : Value :=
  .array [write p.1, write' p.2]

/-- An object, with its keys in the given order. -/
def ofMembers (members : List (String × Value)) : Value :=
  .object (members.map fun (k, v) => (escape k, v))

/-- A natural number up to `limit`. -/
def nat? (limit : Nat) (v : Value) : Option Nat := do
  let n ← integer? v
  if 0 ≤ n ∧ n ≤ limit then some n.toNat else none

/-- A 32-bit signed integer. -/
def int32? (v : Value) : Option Int := do
  let n ← integer? v
  if -2147483648 ≤ n ∧ n ≤ 2147483647 then some n else none

def bool? : Value → Option Bool
  | .bool b => some b
  | _ => none

def string? : Value → Option String
  | .string escaped => unescape? escaped
  | _ => none

def array? {α : Type} (read : Value → Option α) : Value → Option (Array α)
  | .array items => (items.mapM read).map (·.toArray)
  | _ => none

def pair? {α β : Type} (read : Value → Option α) (read' : Value → Option β) : Value → Option (α × β)
  | .array [a, b] => do return (← read a, ← read' b)
  | _ => none

def option? {α : Type} (read : Value → Option α) : Value → Option (Option α)
  | .null => some none
  | v => (read v).map some

/-- The values of a record's fields, where some may be missing: an object without a field given
twice, whose other members do not matter, or an array of all fields in order. -/
def record? (names : List String) : Value → Option (List (Option Value))
  | .array items => if items.length = names.length then some (items.map some) else none
  | .object members => do
    let keyed ← members.mapM fun (k, v) => (unescape? k).map (·, v)
    names.mapM fun name => match keyed.filter (·.1 == name) with
      | [] => some none
      | [(_, v)] => some (some v)
      | _ => none
  | _ => none

/-- A field that must be present. -/
def required {α : Type} (read : Value → Option α) (v : Option Value) : Option α := v.bind read

/-- A field that may be missing or null. -/
def optional {α : Type} (read : Value → Option α) : Option Value → Option (Option α)
  | none => some none
  | some v => option? read v

end Reparse.Json
