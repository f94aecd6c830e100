import Reparse.Edit.Relex
import Reparse.Proofs.Frontier
import Reparse.Proofs.Lexing

/-! # The tokens of an edited text cover it -/
namespace Reparse
open Text Reparse.Tree

/-! ## Leaves with their offsets -/

/-- Leaves with their offsets, the first of which is given. -/
def spans (offset : Nat) : List Leaf → List (Nat × Leaf)
  | [] => []
  | l :: rest => (offset, l) :: spans (offset + l.length) rest

theorem getElem?_spans (ls : List Leaf) (offset i : Nat) :
    (spans offset ls)[i]? = ls[i]?.map fun l => (offset + totalLength (ls.take i), l) := by
  induction ls generalizing offset i with
  | nil => rfl
  | cons l rest ih =>
    cases i with
    | zero => rfl
    | succ i => simp [spans, ih, Nat.add_assoc]

/-- The bytes of leaves that cover a text from an offset on spell it. -/
theorem flatMap_spans (source : Bytes) (ls : List Leaf) {offset : Nat}
    (h : offset + totalLength ls = source.size) :
    (spans offset ls).flatMap
      (fun p => (((Range.ofLength p.1 p.2.length).slice? source).getD #[]).toList) =
        source.toList.drop offset := by
  induction ls generalizing offset with
  | nil =>
    rw [totalLength_nil, Nat.add_zero] at h
    rw [h, ← Array.length_toList, List.drop_length]
    rfl
  | cons l rest ih =>
    rw [totalLength_cons, ← Nat.add_assoc] at h
    have hslice : (Range.ofLength offset l.length).slice? source =
        some (source.extract offset (offset + l.length)) :=
      if_pos ⟨Nat.le_add_right _ _, by simp only [Range.ofLength]; omega⟩
    rw [spans, List.flatMap_cons, ih h, hslice, Option.getD_some]
    simp only [Array.toList_extract, List.extract, Nat.add_sub_cancel_left]
    rw [← List.drop_drop, List.take_append_drop]

theorem SyntaxTree.leaves_toList {t : SyntaxTree} (h : totalLength t.root.frontier ≤ maxSize) :
    t.leaves.toList = spans 0 t.root.frontier := by
  have key (ls : List Leaf) (offset : Nat)
      (found : Array (Nat × Leaf)) (hle : offset + totalLength ls ≤ maxSize) :
      (ls.foldl (fun acc l => (plus acc.1 l.length, acc.2.push (acc.1, l)))
      (offset, found)).2.toList =
        found.toList ++ spans offset ls := by
    induction ls generalizing offset found with
    | nil => simp [spans]
    | cons l rest ih =>
      rw [totalLength_cons] at hle
      rw [List.foldl_cons]
      simp only [plus_of_le (show offset + l.length ≤ maxSize by omega)]
      rw [ih _ _ (by omega)]
      simp [spans]
  have hfold := key t.root.frontier 0 #[] (by omega)
  rw [← Tree.leaves_toList, Array.foldl_toList] at hfold
  simpa [SyntaxTree.leaves, Tree.leaves_toList] using hfold

/-- What every parsed text keeps: the nodes store what follows from their leaves, which are tokens
that spell the source. -/
structure SyntaxTree.Faithful (t : SyntaxTree) : Prop where
  consistent : t.root.Consistent
  nonempty : ∀ l ∈ t.root.frontier, 0 < l.length
  spells : totalLength t.root.frontier = t.source.size
  size : t.source.size ≤ maxSize
  tokens : ∀ l ∈ t.root.frontier, l.lexedKind ≠ .eof

namespace OldLeaf

theorem leaf_foldl (edits : List Edit) (o : OldLeaf) : (edits.foldl apply o).leaf = o.leaf := by
  induction edits generalizing o with
  | nil => rfl
  | cons e rest ih => exact ih (o.apply e)

private theorem oldStart_foldl (edits : List Edit) (o : OldLeaf) :
    (edits.foldl apply o).oldStart = o.oldStart := by
  induction edits generalizing o with
  | nil => rfl
  | cons e rest ih => exact ih (o.apply e)

theorem getElem?_ofTree_eq_foldl (t : SyntaxTree) (edits : List Edit) (i : Nat) :
    (ofTree t edits)[i]? =
    t.leaves[i]?.map fun place =>
      edits.foldl apply { leaf := place.2, start := place.1, oldStart := place.1 } := by
  have key (edits : List Edit) (leaves : Array OldLeaf) :
      (edits.foldl (fun leaves e => leaves.map (·.apply e)) leaves)[i]? =
        leaves[i]?.map (edits.foldl apply) := by
    induction edits generalizing leaves with
    | nil => simp
    | cons e rest ih =>
      rw [List.foldl_cons, ih, Array.getElem?_map, Option.map_map]
      rfl
  rw [ofTree, key, Array.getElem?_map, Option.map_map]
  rfl

private theorem getElem?_ofTree (t : SyntaxTree) (edits : List Edit) (i : Nat) :
    (ofTree t edits)[i]?.map (fun o => (o.oldStart, o.leaf)) = t.leaves[i]? := by
  rw [getElem?_ofTree_eq_foldl, Option.map_map]
  simp [Function.comp_def, leaf_foldl, oldStart_foldl]

/-- An old leaf is a leaf of the old tree, with its offset. -/
theorem of_getElem?_ofTree {t : SyntaxTree} (ht : t.Faithful) {edits : List Edit} {i : Nat}
    {o : OldLeaf} (h : (ofTree t edits)[i]? = some o) :
    t.root.frontier[i]? = some o.leaf ∧ o.oldStart = totalLength (t.root.frontier.take i) := by
  have hleaf := getElem?_ofTree t edits i
  rw [h, Option.map_some, ← Array.getElem?_toList,
    SyntaxTree.leaves_toList (by rw [ht.spells]; exact ht.size), getElem?_spans] at hleaf
  obtain ⟨l, hl, heq⟩ := Option.map_eq_some_iff.1 hleaf.symm
  simp only [Prod.mk.injEq, Nat.zero_add] at heq
  exact ⟨by rw [hl, heq.2], heq.1.symm⟩

theorem stop_le_size {t : SyntaxTree} (ht : t.Faithful) {edits : List Edit} {i : Nat} {o : OldLeaf}
    (h : (ofTree t edits)[i]? = some o) : o.oldStart + o.leaf.length ≤ t.source.size := by
  obtain ⟨hleaf, hstart⟩ := of_getElem?_ofTree ht h
  obtain ⟨hi, hget⟩ := List.getElem?_eq_some_iff.1 hleaf
  have hsplit : totalLength t.root.frontier =
      totalLength (t.root.frontier.take i) +
        (o.leaf.length + totalLength (t.root.frontier.drop (i + 1))) := by
    rw [← hget, ← totalLength_cons, ← List.drop_eq_getElem_cons hi, ← totalLength_append,
      List.take_append_drop]
  rw [← ht.spells, hsplit, hstart]
  omega

end OldLeaf

namespace TokenStream

/-- A token stream up to an offset: it covers the text so far with tokens, and those that have an
origin were taken over from there. -/
structure Covers (old : Array OldLeaf) (offset : Nat) (s : TokenStream) : Prop where
  length : totalLength (s.tokens.toList.map (·.leaf)) = offset
  nonempty : ∀ token ∈ s.tokens, 0 < token.leaf.length
  lexed : ∀ token ∈ s.tokens, token.leaf.asLexed = token.leaf
  tokens : ∀ token ∈ s.tokens, token.leaf.kind ≠ .eof
  origin : ∀ token ∈ s.tokens, ∀ i, token.origin = some i → ∃ o, old[i]? = some o ∧
    o.leaf.asLexed = token.leaf

variable {old : Array OldLeaf} {offset : Nat} {s : TokenStream}

private theorem covers_empty (old : Array OldLeaf) : Covers old 0 {} where
  length := rfl
  nonempty := by simp
  lexed := by simp
  tokens := by simp
  origin := by simp

private theorem Covers.push (h : Covers old offset s) (token : StreamToken) {relexed reused : Nat}
    (hpos : 0 < token.leaf.length) (hlexed : token.leaf.asLexed = token.leaf)
    (hkind : token.leaf.kind ≠ .eof)
    (horigin : ∀ i, token.origin = some i → ∃ o, old[i]? = some o ∧ o.leaf.asLexed = token.leaf) :
    Covers old (offset + token.leaf.length) ⟨s.tokens.push token, relexed, reused⟩ where
  length := by simp [h.length]
  nonempty := by
    intro t ht
    rcases Array.mem_push.1 ht with ht | rfl
    · exact h.nonempty t ht
    · exact hpos
  lexed := by
    intro t ht
    rcases Array.mem_push.1 ht with ht | rfl
    · exact h.lexed t ht
    · exact hlexed
  tokens := by
    intro t ht
    rcases Array.mem_push.1 ht with ht | rfl
    · exact h.tokens t ht
    · exact hkind
  origin := by
    intro t ht
    rcases Array.mem_push.1 ht with ht | rfl
    · exact h.origin t ht
    · exact horigin

/-- Old leaves that may be taken over: they are tokens of the old text. -/
structure Sound (oldSource : Bytes) (o : OldLeaf) : Prop where
  nonempty : 0 < o.leaf.length
  inside : o.oldStart + o.leaf.length ≤ oldSource.size
  token : o.leaf.lexedKind ≠ .eof

private theorem Covers.addReused {oldSource : Bytes} {o : OldLeaf} {i : Nat}
    (h : Covers old offset s) (ho : Sound oldSource o) (hget : old[i]? = some o) :
    Covers old (offset + o.leaf.length) (s.addReused o.leaf.asLexed i) := by
  apply h.push ⟨o.leaf.asLexed, some i⟩ ho.nonempty rfl ho.token
  intro j hj
  obtain rfl : i = j := Option.some.inj hj
  exact ⟨o, hget, rfl⟩

private theorem Covers.addRelexed {t : Lexer.Token} (h : Covers old offset s)
    (hpos : 0 < t.range.length) (hkind : t.kind ≠ .eof) :
    Covers old (offset + t.range.length) (s.addRelexed t) :=
  h.push ⟨.ofToken t, none⟩ hpos rfl hkind fun j hj => by contradiction

theorem sound_ofTree {t : SyntaxTree} (ht : t.Faithful) (edits : List Edit) :
    ∀ (i : Nat) (o : OldLeaf), (OldLeaf.ofTree t edits)[i]? = some o → Sound t.source o := by
  intro i o h
  obtain ⟨hleaf, -⟩ := OldLeaf.of_getElem?_ofTree ht h
  have hmem : o.leaf ∈ t.root.frontier := List.mem_of_getElem? hleaf
  exact ⟨ht.nonempty _ hmem, OldLeaf.stop_le_size ht h, ht.tokens _ hmem⟩

/-- A leaf that is taken over ends inside the text. -/
theorem offset_of_takeOver {lexer : Lexer} {source oldSource : Bytes} {c d : Lexer.Cursor}
    {o : OldLeaf} (ho : Sound oldSource o) (h : takeOver lexer source oldSource c o = some d) :
    d.offset = c.offset + o.leaf.length ∧ d.offset ≤ source.size := by
  simp only [takeOver] at h
  split at h
  · next hc =>
    obtain ⟨hstart, -, -, hbytes⟩ := hc
    injection h with h
    subst h
    refine ⟨by simp only [hstart], ?_⟩
    have hold : (Range.slice? ⟨o.oldStart, o.oldStart + o.leaf.length⟩ oldSource).isSome := by
      have hin := ho.inside
      simp only [Range.slice?]
      rw [if_pos ⟨by omega, hin⟩]
      rfl
    rw [← hbytes, Range.slice?] at hold
    split at hold
    · next hin => exact hin.2
    · contradiction
  · contradiction

private theorem covers_relexFrom {lexer : Lexer} {source oldSource : Bytes}
    (hsize : source.size ≤ maxSize) (hlexer : ∀ k, lexer.Emits k → k ≠ .eof)
    (hold : ∀ (i : Nat) (o : OldLeaf), old[i]? = some o → Sound oldSource o) {i : Nat}
    {c : Lexer.Cursor} (hc : c.offset ≤ source.size) (hs : Covers old c.offset s) :
    Covers old source.size (relexFrom lexer source oldSource old i c s) := by
  fun_induction relexFrom lexer source oldSource old i c s with
  | case1 i c s inside i' o d taken ih =>
    obtain ⟨o', ho, hmap⟩ := Option.bind_eq_some_iff.1 taken
    obtain ⟨d', hd, heq⟩ := Option.map_eq_some_iff.1 hmap
    simp only [Prod.mk.injEq] at heq
    obtain ⟨rfl, rfl⟩ := heq
    obtain ⟨hoffset, hle⟩ := offset_of_takeOver (hold _ _ ho) hd
    apply ih hle
    rw [hoffset]
    exact hs.addReused (hold _ _ ho) ho
  | case2 i c s inside i' taken hnext =>
    have hsome : (lexer.nextToken source c).isSome := Lexer.nextToken_isSome inside
    rw [hnext] at hsome
    contradiction
  | case3 i c s inside i' taken t hnext forward ih =>
    have ht := Lexer.covers_of_nextToken hsize hnext
    have hoffset : (Lexer.Cursor.after t).offset = c.offset + t.range.length := by
      simp only [Lexer.Cursor.after, Range.length, ht.start]
      omega
    apply ih ht.inside
    rw [hoffset]
    exact hs.addRelexed (by simp only [Range.length, ht.start]; omega) (hlexer _ ht.emits)
  | case4 i c s inside i' taken t hnext backward =>
    exact absurd (Lexer.covers_of_nextToken hsize hnext).forward backward
  | case5 i c s outside =>
    have hend : c.offset = source.size := by omega
    exact hend ▸ hs

/-- The tokens of a text cover it, whatever the edits say. -/
theorem covers_relex {lexer : Lexer} {source oldSource : Bytes} (hsize : source.size ≤ maxSize)
    (hlexer : ∀ k, lexer.Emits k → k ≠ .eof)
    (hold : ∀ (i : Nat) (o : OldLeaf), old[i]? = some o → Sound oldSource o) :
    Covers old source.size (relex lexer source oldSource old) :=
  covers_relexFrom hsize hlexer hold (Nat.zero_le _) (covers_empty old)

/-- Without old leaves, all tokens come from the lexer. -/
theorem exists_of_mem_relexFrom {lexer : Lexer} {source oldSource : Bytes} {i : Nat}
    {c : Lexer.Cursor} {token : StreamToken}
    (h : token ∈ (relexFrom lexer source oldSource #[] i c s).tokens) :
    token ∈ s.tokens ∨ ∃ d t, lexer.nextToken source d = some t ∧ token.leaf = .ofToken t := by
  fun_induction relexFrom lexer source oldSource #[] i c s with
  | case1 i c s inside i' o d taken ih => simp at taken
  | case2 i c s inside i' taken hnext => exact .inl h
  | case3 i c s inside i' taken t hnext forward ih =>
    rcases ih h with h | h
    · rcases Array.mem_push.1 h with h | rfl
      · exact .inl h
      · exact .inr ⟨c, t, hnext, rfl⟩
    · exact .inr h
  | case4 i c s inside i' taken t hnext backward =>
    rcases Array.mem_push.1 h with h | rfl
    · exact .inl h
    · exact .inr ⟨c, t, hnext, rfl⟩
  | case5 i c s outside => exact .inl h

end TokenStream
end Reparse
