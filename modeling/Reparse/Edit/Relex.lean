import Reparse.Edit.Basic
import Reparse.Lexer.Basic
import Reparse.SyntaxTree.Basic

/-! # Tokens of an edited text, taken over from the previous tree where possible -/
namespace Reparse
open Text

/-- A leaf of the previous tree. -/
structure OldLeaf where
  leaf : Leaf
  /-- Its offset in the new text. -/
  start : Nat
  /-- Its offset in the previous text. -/
  oldStart : Nat
  /-- An edit touched the bytes that were read to find it. -/
  dirty : Bool := false
deriving DecidableEq, Inhabited

namespace OldLeaf

def apply (o : OldLeaf) (e : Edit) : OldLeaf :=
  { o with
    dirty := o.dirty || e.touches o.start (o.start + o.leaf.length) o.leaf.lookahead
    start := e.shift o.start }

/-- The leaves of a tree after some edits. -/
def ofTree (t : SyntaxTree) (edits : List Edit) : Array OldLeaf :=
  edits.foldl (fun leaves e => leaves.map (·.apply e))
    (t.leaves.map fun (offset, leaf) => { leaf, start := offset, oldStart := offset })

end OldLeaf

/-- A token of the new text, with the number of the old leaf that it is. -/
structure StreamToken where
  leaf : Leaf
  origin : Option Nat
deriving DecidableEq, Inhabited

/-- The tokens of a text, and how many of them were read anew and how many taken over. -/
structure TokenStream where
  tokens : Array StreamToken := #[]
  relexed : Nat := 0
  reused : Nat := 0
deriving Inhabited

namespace TokenStream

def addReused (s : TokenStream) (leaf : Leaf) (origin : Nat) : TokenStream :=
  { s with tokens := s.tokens.push ⟨leaf, some origin⟩, reused := s.reused + 1 }

def addRelexed (s : TokenStream) (t : Lexer.Token) : TokenStream :=
  { s with tokens := s.tokens.push ⟨.ofToken t, none⟩, relexed := s.relexed + 1 }

/-- The first old leaf from number `i` on that does not start before `offset`. -/
def skipBefore (old : Array OldLeaf) (offset i : Nat) : Nat :=
  if h : i < old.size then if old[i].start < offset then skipBefore old offset (i + 1) else i else i

private theorem le_skipBefore (old : Array OldLeaf) (offset i : Nat) :
    i ≤ skipBefore old offset i := by
  fun_induction skipBefore old offset i with
  | case1 => omega
  | case2 => exact Nat.le_refl _
  | case3 => exact Nat.le_refl _

/-- Where the lexer is after an old leaf that can be taken over at the cursor: it is clean, starts
there in the same mode and has the same bytes. -/
def takeOver (lexer : Lexer) (source oldSource : Bytes) (c : Lexer.Cursor) (o : OldLeaf) :
    Option Lexer.Cursor :=
  let stop := o.start + o.leaf.length
  if o.start = c.offset ∧ !o.dirty ∧ o.leaf.mode = c.mode ∧
      Range.slice? ⟨o.start, stop⟩ source =
        Range.slice? ⟨o.oldStart, o.oldStart + o.leaf.length⟩ oldSource then
    some ⟨stop, c.point.advance (source.extract c.offset stop),
      lexer.modeAfter o.leaf.lexedKind c.mode⟩
  else none

private theorem le_of_takeOver {lexer : Lexer} {source oldSource : Bytes} {c d : Lexer.Cursor}
    {o : OldLeaf} (h : takeOver lexer source oldSource c o = some d) : c.offset ≤ d.offset := by
  simp only [takeOver] at h
  split at h
  · next hc => injection h with h; subst h; simp only; omega
  · contradiction

/-- Reads on from the cursor, where the old leaves from number `i` on may be taken over. -/
def relexFrom (lexer : Lexer) (source oldSource : Bytes) (old : Array OldLeaf) (i : Nat)
    (c : Lexer.Cursor) (s : TokenStream) : TokenStream :=
  if _inside : c.offset < source.size then
    let i' := skipBefore old c.offset i
    match _taken : (old[i']?.bind fun o => (takeOver lexer source oldSource c o).map (o, ·)) with
    | some (o, d) =>
      relexFrom lexer source oldSource old (i' + 1) d
        (s.addReused (o.leaf.reinterpret o.leaf.lexedKind) i')
    | none =>
      match lexer.nextToken source c with
      | none => s
      | some t =>
        if _forward : c.offset < t.range.stop then
          relexFrom lexer source oldSource old i' (.after t) (s.addRelexed t)
        else s.addRelexed t
  else s
termination_by (source.size - c.offset, old.size - i)
decreasing_by
  · have hi := le_skipBefore old c.offset i
    obtain ⟨o', ho, hmap⟩ := Option.bind_eq_some_iff.1 _taken
    obtain ⟨d', hd, he⟩ := Option.map_eq_some_iff.1 hmap
    simp only [Prod.mk.injEq] at he
    obtain ⟨rfl, rfl⟩ := he
    have hlt : skipBefore old c.offset i < old.size := (Array.getElem?_eq_some_iff.1 ho).1
    have hle := le_of_takeOver hd
    rcases Nat.lt_or_eq_of_le hle with h | h
    · exact Prod.Lex.left _ _ (by omega)
    · rw [← h]; exact Prod.Lex.right _ (by omega)
  · exact Prod.Lex.left _ _ (by simp only [Lexer.Cursor.after]; omega)

/-- The tokens of `source`. -/
def relex (lexer : Lexer) (source oldSource : Bytes) (old : Array OldLeaf) : TokenStream :=
  relexFrom lexer source oldSource old 0 .start {}

end TokenStream
end Reparse
