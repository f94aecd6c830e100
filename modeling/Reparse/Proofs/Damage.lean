import Reparse.Proofs.Locality
import Reparse.Proofs.Relexing

/-! # Leaves that no edit touched stand on the same bytes -/
namespace Reparse
open Text

namespace Edit

variable {e : Edit} {a b c old new : Bytes} {edits : List Edit} {n : Nat}

/-- The edit says how one text became another. -/
structure Turns (e : Edit) (a b : Bytes) : Prop where
  forward : e.start ≤ e.oldEnd
  inside : e.oldEnd ≤ a.size
  text : ∃ replacement : Bytes, e.newEnd = e.start + replacement.size ∧
    b = a.extract 0 e.start ++ replacement ++ a.extract e.oldEnd a.size

/-- The edits say how one text became another. Each refers to the text that those before it left. -/
inductive Leads : List Edit → Bytes → Bytes → Prop
  | nil (a : Bytes) : Leads [] a a
  | cons {e : Edit} {edits : List Edit} {a b c : Bytes} (first : e.Turns a b)
      (rest : Leads edits b c) : Leads (e :: edits) a c

/-- The edit that a replacement gives back describes it. -/
theorem turns_splice (source : Bytes) (range : Range) (replacement : Bytes) :
    (splice source range replacement).2.Turns source (splice source range replacement).1 where
  forward := Nat.min_le_right _ _
  inside := Nat.min_le_right _ _
  text := ⟨replacement, rfl, rfl⟩

theorem not_touches {start stop lookahead : Nat} (h : e.touches start stop lookahead = false) :
    stop + lookahead ≤ e.start ∨ e.oldEnd < start := by
  unfold touches at h
  simp only [Bool.and_eq_false_iff, decide_eq_false_iff_not, Nat.not_lt, Nat.not_le] at h
  exact h

private theorem Turns.getElem?_before (h : e.Turns a b) {i : Nat} (hi : i < e.start) :
    b[i]? = a[i]? := by
  obtain ⟨replacement, -, rfl⟩ := h.text
  have hstart := Nat.le_trans h.forward h.inside
  have hsize : (a.extract 0 e.start).size = e.start := by
    rw [Array.size_extract]
    omega
  rw [Array.getElem?_append_left (by rw [Array.size_append]; omega),
    Array.getElem?_append_left (by omega), Array.getElem?_extract, if_pos (by omega), Nat.zero_add]

private theorem Turns.getElem?_after (h : e.Turns a b) {i : Nat} (hi : e.oldEnd ≤ i) :
    b[e.newEnd + (i - e.oldEnd)]? = a[i]? := by
  obtain ⟨replacement, hend, rfl⟩ := h.text
  have hstart := Nat.le_trans h.forward h.inside
  have hsize : (a.extract 0 e.start ++ replacement).size = e.newEnd := by
    rw [Array.size_append, Array.size_extract]
    omega
  rw [Array.getElem?_append_right (by omega), hsize, Nat.add_sub_cancel_left,
    Array.getElem?_extract, Nat.min_self, Nat.add_sub_cancel' hi]
  split
  · rfl
  · exact (Array.getElem?_eq_none (by omega)).symm

theorem shift_before {i : Nat} (h : i < e.oldEnd) : e.shift i = i := if_neg (Nat.not_le.2 h)

theorem shift_after {i : Nat} (h : e.oldEnd ≤ i) : e.shift i = e.newEnd + (i - e.oldEnd) := by
  rw [shift, if_pos h, delta]
  omega

/-- What an edit does not touch is moved as a whole. -/
private theorem Turns.agree (h : e.Turns a b) {start stop lookahead : Nat} (hlt : start < stop)
    (hclean : e.touches start stop lookahead = false) :
    Agree a b start (e.shift start) (stop + lookahead - start) := by
  have hforward := h.forward
  intro m hm
  rcases not_touches hclean with hbefore | hafter
  · rw [shift_before (by omega), h.getElem?_before (by omega)]
  · rw [shift_after (Nat.le_of_lt hafter), ← h.getElem?_after (show e.oldEnd ≤ start + m by omega)]
    congr 1
    omega

end Edit

namespace OldLeaf

variable {old new : Bytes} {edits : List Edit} {o : OldLeaf}

/-- The leaf stands on bytes of a text that are those of the text it comes from, as far as the lexer
read to find it. -/
def StandsOn (o : OldLeaf) (old new : Bytes) : Prop := Agree old new o.oldStart o.start o.leaf.reach

theorem apply_clean {e : Edit} (h : (o.apply e).dirty = false) :
    o.dirty = false ∧ e.touches o.start (o.start + o.leaf.length) o.leaf.lookahead = false := by
  simpa [apply] using h

/-- An edit that leaves a leaf clean moves it to the bytes it stood on. -/
theorem StandsOn.apply {mid : Bytes} {e : Edit} (h : o.StandsOn old mid) (hturns : e.Turns mid new)
    (hpos : 0 < o.leaf.length) (hclean : (o.apply e).dirty = false) :
    (o.apply e).StandsOn old new := by
  have hagree := hturns.agree (Nat.lt_add_of_pos_right hpos) (apply_clean hclean).2
  rw [Nat.add_assoc, Nat.add_sub_cancel_left] at hagree
  exact Agree.trans h hagree

/-- What is clean after some edits was clean before. -/
theorem clean_of_foldl (h : (edits.foldl apply o).dirty = false) : o.dirty = false := by
  induction edits generalizing o with
  | nil => exact h
  | cons e rest ih => exact (apply_clean (ih h)).1

private theorem standsOn_foldl {mid : Bytes} (hedits : Edit.Leads edits mid new)
    (h : o.StandsOn old mid) (hpos : 0 < o.leaf.length)
    (hclean : (edits.foldl apply o).dirty = false) : (edits.foldl apply o).StandsOn old new := by
  induction hedits generalizing o with
  | nil => exact h
  | cons first rest ih => exact ih (h.apply first hpos (clean_of_foldl hclean)) hpos hclean

/-- A leaf of the old tree that the edits leave clean stands on the bytes that were read to find
it. -/
theorem standsOn_ofTree {t : SyntaxTree} (ht : t.Faithful) (hedits : Edit.Leads edits t.source new)
    {i : Nat} (h : (ofTree t edits)[i]? = some o) (hclean : o.dirty = false) :
    o.StandsOn t.source new := by
  have hpos : 0 < o.leaf.length := ht.nonempty _ (List.mem_of_getElem? (of_getElem?_ofTree ht h).1)
  rw [getElem?_ofTree_eq_foldl] at h
  obtain ⟨place, -, rfl⟩ := Option.map_eq_some_iff.1 h
  rw [leaf_foldl] at hpos
  exact standsOn_foldl hedits (.refl t.source place.1 place.2.reach) hpos hclean

end OldLeaf
end Reparse
