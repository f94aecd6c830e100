import Reparse.Data.BitSet

/-! # Values that are computed before they are used

Where a definition is only unfolded, an argument is computed anew in every place that it is put
into, and a list by every pass over it. Materialized arguments are computed once, which makes no
difference to any result. -/
namespace Reparse.Data

/-- Values that can be computed before they are passed on. -/
class Materialize (α : Type) where
  materialize {β : Type} : α → (α → β) → β
  materialize_eq {β : Type} (a : α) (k : α → β) : materialize a k = k a

export Materialize (materialize)

attribute [simp] Materialize.materialize_eq

namespace Materialize

variable {α β γ : Type}

def ofNat : Nat → (Nat → β) → β
  | 0, k => k 0
  | n + 1, k => k (n + 1)

instance : Materialize Nat where
  materialize := ofNat
  materialize_eq n k := by cases n <;> rfl

instance : Materialize Bool where
  materialize b k := match b with
    | true => k true
    | false => k false
  materialize_eq b k := by cases b <;> rfl

instance [Materialize α] [Materialize β] : Materialize (α × β) where
  materialize p k := match p with
    | (a, b) => materialize a fun a => materialize b fun b => k (a, b)
  materialize_eq p k := by simp

/-- Every element, from left to right. -/
def ofList [Materialize α] : List α → (List α → β) → β
  | [], k => k []
  | a :: as, k => materialize a fun a => ofList as fun as => k (a :: as)

private theorem ofList_eq [Materialize α] (as : List α) (k : List α → β) : ofList as k = k as := by
  induction as generalizing k with
  | nil => rfl
  | cons a as ih => rw [ofList, materialize_eq, ih]

instance [Materialize α] : Materialize (List α) where
  materialize := ofList
  materialize_eq := ofList_eq

instance [Materialize α] : Materialize (Option α) where
  materialize o k := match o with
    | none => k none
    | some a => materialize a fun a => k (some a)
  materialize_eq o k := by cases o <;> simp

instance : Materialize BitSet where
  materialize s k := match s with
    | ⟨bits⟩ => materialize bits fun bits => k ⟨bits⟩
  materialize_eq s k := by simp

end Materialize
end Reparse.Data
