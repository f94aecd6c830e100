import Reparse.Proofs.Damage
import Reparse.Proofs.Reparsing
import Reparse.Proofs.Soundness

/-! # The old leaves that the reader of an edited text finds -/
namespace Reparse
open Text

/-! ## Old leaves after edits -/

namespace Edit

variable {e : Edit} {a b : Bytes} {i j : Nat}

private theorem Turns.start_le_newEnd (h : e.Turns a b) : e.start ≤ e.newEnd := by
  obtain ⟨replacement, hend, -⟩ := h.text
  exact Nat.le.intro hend.symm

/-- An edit that takes no bytes away leaves offsets in their order. -/
private theorem shift_lt_shift (hlonger : e.oldEnd ≤ e.newEnd) (h : i < j) :
    e.shift i < e.shift j := by
  by_cases hj : j < e.oldEnd
  · rwa [shift_before hj, shift_before (Nat.lt_trans h hj)]
  · rw [shift_after (Nat.le_of_not_lt hj)]
    by_cases hi : i < e.oldEnd
    · rw [shift_before hi]
      omega
    · rw [shift_after (Nat.le_of_not_lt hi)]
      omega

end Edit

namespace OldLeaf

variable {o b : OldLeaf} {edits : List Edit} {old mid new : Bytes}

/-- An edit leaves a leaf before those behind it, if it does not touch it. -/
private theorem le_start_apply {e : Edit} (hturns : e.Turns mid new) (hpos : 0 < o.leaf.length)
    (h : o.start + o.leaf.length ≤ b.start) (hclean : (o.apply e).dirty = false) :
    (o.apply e).start + o.leaf.length ≤ (b.apply e).start := by
  change e.shift o.start + o.leaf.length ≤ e.shift b.start
  have hforward := hturns.forward
  have hend := hturns.start_le_newEnd
  rcases Edit.not_touches (apply_clean hclean).2 with hbefore | hafter
  · rw [Edit.shift_before (by omega)]
    by_cases hb : b.start < e.oldEnd
    · rwa [Edit.shift_before hb]
    · rw [Edit.shift_after (Nat.le_of_not_lt hb)]
      omega
  · rw [Edit.shift_after (Nat.le_of_lt hafter), Edit.shift_after (by omega)]
    omega

private theorem le_start_foldl (hedits : Edit.Leads edits mid new) (hpos : 0 < o.leaf.length)
    (h : o.start + o.leaf.length ≤ b.start) (hclean : (edits.foldl apply o).dirty = false) :
    (edits.foldl apply o).start + o.leaf.length ≤ (edits.foldl apply b).start := by
  induction hedits generalizing o b with
  | nil => exact h
  | cons first rest ih => exact ih hpos (le_start_apply first hpos h (clean_of_foldl hclean)) hclean

private theorem start_lt_foldl (hlonger : ∀ e ∈ edits, e.oldEnd ≤ e.newEnd)
    (h : o.start < b.start) :
    (edits.foldl apply o).start < (edits.foldl apply b).start := by
  induction edits generalizing o b with
  | nil => exact h
  | cons e rest ih =>
    apply ih fun e he => hlonger e (List.mem_cons_of_mem _ he)
    exact Edit.shift_lt_shift (hlonger e List.mem_cons_self) h

/-- The places of two leaves before any edit. -/
theorem le_of_leaves {t : SyntaxTree} (ht : t.Faithful) {i j : Nat} (hij : i < j) {p q : Nat × Leaf}
    (hp : t.leaves[i]? = some p) (hq : t.leaves[j]? = some q) :
    0 < p.2.length ∧ p.1 + p.2.length ≤ q.1 := by
  rw [← Array.getElem?_toList, SyntaxTree.leaves_toList (by rw [ht.spells]; exact ht.size),
    getElem?_spans] at hp hq
  obtain ⟨l, hl, rfl⟩ := Option.map_eq_some_iff.1 hp
  obtain ⟨r, hr, rfl⟩ := Option.map_eq_some_iff.1 hq
  have htake : Tree.totalLength (t.root.frontier.take (i + 1)) =
      Tree.totalLength (t.root.frontier.take i) + l.length := by
    rw [List.take_add_one, hl, Tree.totalLength_append]
    rfl
  have hmore : t.root.frontier.take j =
      t.root.frontier.take (i + 1) ++ (t.root.frontier.take j).drop (i + 1) := by
    have hparts := (List.take_append_drop (i + 1) (t.root.frontier.take j)).symm
    rwa [List.take_take, Nat.min_eq_left hij] at hparts
  refine ⟨ht.nonempty l (List.mem_of_getElem? hl), ?_⟩
  simp only [Nat.zero_add]
  rw [hmore, Tree.totalLength_append, htake]
  omega

variable {t : SyntaxTree} {i j : Nat}

/-- A clean leaf stands before those behind it. -/
theorem start_lt_of_clean (ht : t.Faithful) (hedits : Edit.Leads edits t.source new) (hij : i < j)
    (ho : (ofTree t edits)[i]? = some o) (hb : (ofTree t edits)[j]? = some b)
    (hclean : o.dirty = false) :
    o.start < b.start := by
  rw [getElem?_ofTree_eq_foldl] at ho hb
  obtain ⟨p, hp, rfl⟩ := Option.map_eq_some_iff.1 ho
  obtain ⟨q, hq, rfl⟩ := Option.map_eq_some_iff.1 hb
  obtain ⟨hpos, hle⟩ := le_of_leaves ht hij hp hq
  have hshifted := le_start_foldl (o := { leaf := p.2, start := p.1, oldStart := p.1 })
    (b := { leaf := q.2, start := q.1, oldStart := q.1 }) hedits hpos hle hclean
  exact Nat.lt_of_lt_of_le (Nat.lt_add_of_pos_right hpos) hshifted

/-- Leaves stand in their order where no edit takes bytes away. -/
private theorem start_lt_of_longer (ht : t.Faithful) (hlonger : ∀ e ∈ edits, e.oldEnd ≤ e.newEnd)
    (hij : i < j) (ho : (ofTree t edits)[i]? = some o) (hb : (ofTree t edits)[j]? = some b) :
    o.start < b.start := by
  rw [getElem?_ofTree_eq_foldl] at ho hb
  obtain ⟨p, hp, rfl⟩ := Option.map_eq_some_iff.1 ho
  obtain ⟨q, hq, rfl⟩ := Option.map_eq_some_iff.1 hb
  obtain ⟨hpos, hle⟩ := le_of_leaves ht hij hp hq
  apply start_lt_foldl hlonger
  simp only
  omega

/-- A clean leaf of a truthfully edited text can be taken over where it stands. -/
theorem takeOver_of_clean (lexer : Lexer) (ht : t.Faithful) (hedits : Edit.Leads edits t.source new)
    (ho : (ofTree t edits)[i]? = some o) (hclean : o.dirty = false) {c : Lexer.Cursor}
    (hstart : o.start = c.offset) (hmode : o.leaf.mode = c.mode) :
    c.offset < new.size ∧ ∃ d, TokenStream.takeOver lexer new t.source c o = some d := by
  have hpos : 0 < o.leaf.length := ht.nonempty _ (List.mem_of_getElem? (of_getElem?_ofTree ht ho).1)
  have hagree : Agree t.source new o.oldStart o.start o.leaf.length :=
    (standsOn_ofTree ht hedits ho hclean).mono (Nat.le_add_right _ _)
  have hold := stop_le_size ht ho
  have hnew : o.start + o.leaf.length ≤ new.size := by
    have hlast := hagree (o.leaf.length - 1) (by omega)
    rw [Array.getElem?_eq_getElem (by omega)] at hlast
    have := (Array.getElem?_eq_some_iff.1 hlast.symm).1
    omega
  have hbytes : Range.slice? ⟨o.start, o.start + o.leaf.length⟩ new =
      Range.slice? ⟨o.oldStart, o.oldStart + o.leaf.length⟩ t.source := by
    rw [Range.slice?, Range.slice?, if_pos ⟨Nat.le_add_right _ _, hnew⟩,
      if_pos ⟨Nat.le_add_right _ _, hold⟩]
    exact congrArg some (hagree.extract_eq hold hnew).symm
  have htaken : TokenStream.takeOver lexer new t.source c o = some _ :=
    if_pos ⟨hstart, by simp [hclean], hmode, hbytes⟩
  exact ⟨by omega, _, htaken⟩

end OldLeaf

/-! ## The reader -/

namespace TokenStream

variable {lexer : Lexer} {source oldSource : Bytes} {old : Array OldLeaf} {i j : Nat}
  {c d : Lexer.Cursor} {s : TokenStream} {o : OldLeaf}

/-- Where the reader stands when it has found some tokens: the first old leaf that it has not
passed, and the cursor. -/
inductive Reading (lexer : Lexer) (source oldSource : Bytes) (old : Array OldLeaf) :
    Nat → Lexer.Cursor → TokenStream → Prop
  | start : Reading lexer source oldSource old 0 .start {}
  | take {i : Nat} {c d : Lexer.Cursor} {s : TokenStream} {o : OldLeaf}
      (before : Reading lexer source oldSource old i c s) (inside : c.offset < source.size)
      (found : old[skipBefore old c.offset i]? = some o)
      (taken : takeOver lexer source oldSource c o = some d) :
      Reading lexer source oldSource old (skipBefore old c.offset i + 1) d
        (s.addReused o.leaf.asLexed (skipBefore old c.offset i))
  | lex {i : Nat} {c : Lexer.Cursor} {s : TokenStream} {t : Lexer.Token}
      (before : Reading lexer source oldSource old i c s) (inside : c.offset < source.size)
      (unlike : ∀ o, old[skipBefore old c.offset i]? = some o →
        takeOver lexer source oldSource c o = none)
      (next : lexer.nextToken source c = some t) (forward : c.offset < t.range.stop) :
      Reading lexer source oldSource old (skipBefore old c.offset i) (.after t) (s.addRelexed t)

private theorem start_of_takeOver (h : takeOver lexer source oldSource c o = some d) :
    o.start = c.offset := by
  simp only [takeOver] at h
  split at h
  · next hcan => exact hcan.1
  · contradiction

private theorem takeOver_of_dirty (h : o.dirty = true) :
    takeOver lexer source oldSource c o = none :=
  if_neg fun hcan => by simp [h] at hcan

private theorem relexFrom_of_takeOver (inside : c.offset < source.size)
    (found : old[skipBefore old c.offset i]? = some o)
    (taken : takeOver lexer source oldSource c o = some d) :
    relexFrom lexer source oldSource old i c s =
      relexFrom lexer source oldSource old (skipBefore old c.offset i + 1) d
        (s.addReused o.leaf.asLexed (skipBefore old c.offset i)) := by
  have hboth : (old[skipBefore old c.offset i]?.bind fun o =>
      (takeOver lexer source oldSource c o).map (o, ·)) = some (o, d) := by
        rw [found, Option.bind_some, taken, Option.map_some]
  rw [relexFrom, dif_pos inside]
  dsimp only
  split
  · next o' d' h =>
    obtain ⟨rfl, rfl⟩ := Prod.mk.inj (Option.some.inj (hboth.symm.trans h))
    rfl
  · next h =>
    rw [hboth] at h
    contradiction

private theorem relexFrom_of_lex {t : Lexer.Token} (inside : c.offset < source.size)
    (unlike : ∀ o, old[skipBefore old c.offset i]? = some o →
      takeOver lexer source oldSource c o = none)
    (next : lexer.nextToken source c = some t) (forward : c.offset < t.range.stop) :
    relexFrom lexer source oldSource old i c s =
      relexFrom lexer source oldSource old (skipBefore old c.offset i)
        (.after t) (s.addRelexed t) := by
  rw [relexFrom, dif_pos inside]
  dsimp only
  split
  · next o' d' h =>
    obtain ⟨o, ho, hmap⟩ := Option.bind_eq_some_iff.1 h
    rw [unlike o ho] at hmap
    contradiction
  · split
    · next h =>
      rw [next] at h
      contradiction
    · next t' h =>
      obtain rfl := Option.some.inj (next.symm.trans h)
      rw [dif_pos forward]

/-- The tokens of the text are those that the reader finds from there on. -/
theorem Reading.relexFrom_eq (h : Reading lexer source oldSource old i c s) :
    relexFrom lexer source oldSource old i c s = relex lexer source oldSource old := by
  induction h with
  | start => rfl
  | take before inside found taken ih => rw [← relexFrom_of_takeOver inside found taken, ih]
  | lex before inside unlike next forward ih =>
    rw [← relexFrom_of_lex inside unlike next forward, ih]

/-- The reader comes to the end of the text. -/
theorem Reading.reaches_end (hsize : source.size ≤ maxSize)
    (h : Reading lexer source oldSource old i c s) :
    ∃ i c, Reading lexer source oldSource old i c (relex lexer source oldSource old) ∧
      source.size ≤ c.offset := by
  rw [← h.relexFrom_eq]
  fun_induction relexFrom lexer source oldSource old i c s with
  | case1 i c s inside i' o d taken ih =>
    obtain ⟨o', ho, hmap⟩ := Option.bind_eq_some_iff.1 taken
    obtain ⟨d', hd, heq⟩ := Option.map_eq_some_iff.1 hmap
    obtain ⟨rfl, rfl⟩ := Prod.mk.inj heq
    exact ih (h.take inside ho hd)
  | case2 i c s inside i' taken hnext =>
    have hsome : (lexer.nextToken source c).isSome := Lexer.nextToken_isSome inside
    rw [hnext] at hsome
    contradiction
  | case3 i c s inside i' taken t hnext forward ih =>
    refine ih (h.lex inside (fun o ho => ?_) hnext forward)
    simpa [i', ho] using taken
  | case4 i c s inside i' taken t hnext backward =>
    exact absurd (Lexer.covers_of_nextToken hsize hnext).forward backward
  | case5 i c s outside => exact ⟨i, c, h, Nat.le_of_not_lt outside⟩

/-- Tokens that were found stay. -/
theorem getElem?_relexFrom (lexer : Lexer) (source oldSource : Bytes) (old : Array OldLeaf)
    (i : Nat) (c : Lexer.Cursor) (s : TokenStream) {n : Nat} {token : StreamToken}
    (h : s.tokens[n]? = some token) :
    (relexFrom lexer source oldSource old i c s).tokens[n]? = some token := by
  have hkept (s : TokenStream) (t : StreamToken) (h : s.tokens[n]? = some token) :
      (s.tokens.push t)[n]? = some token := by
    obtain ⟨hn, rfl⟩ := Array.getElem?_eq_some_iff.1 h
    exact Array.getElem?_push_lt hn
  fun_induction relexFrom lexer source oldSource old i c s with
  | case1 i c s inside i' o d taken ih => exact ih (hkept s _ h)
  | case2 => exact h
  | case3 i c s inside i' taken t hnext forward ih => exact ih (hkept s _ h)
  | case4 i c s inside i' taken t hnext backward => exact hkept s _ h
  | case5 => exact h

private theorem start_lt_of_skipBefore {offset k : Nat} (hk : i ≤ k)
    (hlt : k < skipBefore old offset i) (ho : old[k]? = some o) :
    o.start < offset := by
  fun_induction skipBefore old offset i with
  | case1 i hi hbefore ih =>
    rcases Nat.lt_or_eq_of_le hk with hk | rfl
    · exact ih hk hlt
    · rw [Array.getElem?_eq_getElem hi] at ho
      rwa [← Option.some.inj ho]
  | case2 => omega
  | case3 => omega

/-- The search for a leaf stops at the first that does not stand before the offset. -/
theorem skipBefore_eq {offset : Nat} (hij : i ≤ j)
    (hbefore : ∀ k < j, ∀ o, old[k]? = some o → o.start < offset) (ho : old[j]? = some o)
    (hstart : offset ≤ o.start) : skipBefore old offset i = j := by
  obtain ⟨hj, rfl⟩ := Array.getElem?_eq_some_iff.1 ho
  fun_induction skipBefore old offset i with
  | case1 i hi hlt ih =>
    rcases Nat.lt_or_eq_of_le hij with hij | rfl
    · exact ih hij
    · omega
  | case2 i hi hge =>
    rcases Nat.lt_or_eq_of_le hij with hij | rfl
    · exact absurd (hbefore i hij _ (Array.getElem?_eq_getElem hi)) hge
    · rfl
  | case3 i hi => omega

/-- The reader has passed only leaves that start before the cursor. -/
private theorem Reading.start_lt
    (hold : ∀ (i : Nat) (o : OldLeaf), old[i]? = some o → Sound oldSource o)
    (h : Reading lexer source oldSource old i c s) {k : Nat} (hk : k < i) (ho : old[k]? = some o) :
    o.start < c.offset := by
  induction h generalizing k o with
  | start => exact absurd hk (Nat.not_lt_zero k)
  | @take i c d s taken before inside found htaken ih =>
    have hmoved := (offset_of_takeOver (hold _ _ found) htaken).1
    have hpos := (hold _ _ found).nonempty
    rcases Nat.lt_or_eq_of_le (Nat.le_of_lt_succ hk) with hk | rfl
    · by_cases hki : k < i
      · have := ih hki ho
        omega
      · have := start_lt_of_skipBefore (Nat.le_of_not_lt hki) hk ho
        omega
    · rw [found] at ho
      obtain rfl := Option.some.inj ho
      have hat := start_of_takeOver htaken
      omega
  | @lex i c s t before inside unlike next forward ih =>
    change o.start < t.range.stop
    by_cases hki : k < i
    · have := ih hki ho
      omega
    · have := start_lt_of_skipBefore (Nat.le_of_not_lt hki) hk ho
      omega

/-- An old leaf that can be taken over at the cursor is, if all leaves before it start before it. -/
theorem Reading.taken (hold : ∀ (i : Nat) (o : OldLeaf), old[i]? = some o → Sound oldSource o)
    (h : Reading lexer source oldSource old i c s) (inside : c.offset < source.size)
    (ho : old[j]? = some o) (hbefore : ∀ k < j, ∀ b, old[k]? = some b → b.start < c.offset)
    (htake : takeOver lexer source oldSource c o = some d) :
    (relex lexer source oldSource old).tokens[s.tokens.size]? = some ⟨o.leaf.asLexed, some j⟩ := by
  have hstart := start_of_takeOver htake
  have hij : i ≤ j := by
    refine Nat.le_of_not_lt fun hlt => ?_
    have := h.start_lt hold hlt ho
    omega
  have hskip : skipBefore old c.offset i = j :=
    skipBefore_eq hij hbefore ho (Nat.le_of_eq hstart.symm)
  rw [← h.relexFrom_eq, relexFrom_of_takeOver inside (by rw [hskip]; exact ho) htake, hskip]
  apply getElem?_relexFrom
  exact Array.getElem?_push_size

end TokenStream

/-! ## Texts of one letter -/

namespace Letter

/-- What an edit makes of a letter. -/
def edited (e : Edit) (offset : Nat) : OldLeaf :=
  OldLeaf.apply { leaf, start := offset, oldStart := offset } e

/-- An old letter after an edit. -/
structure IsEdited (e : Edit) (offset : Nat) (o : OldLeaf) : Prop where
  leaf : o.leaf.asLexed = Letter.leaf
  start : o.start = (edited e offset).start
  dirty : o.dirty = (edited e offset).dirty

private theorem ofTree_letters {source : Bytes} (hsize : source.size ≤ maxSize) {n : Nat}
    (hmakes : lexer.Makes source 0 0 (List.replicate n leaf)) (e : Edit) {i : Nat} (hi : i < n) :
    ∃ o, (OldLeaf.ofTree (parser.parse source) [e])[i]? = some o ∧ IsEdited e i o := by
  have hfaithful : (parser.parse source).Faithful :=
    Parser.faithful_scratch Compilation.letter rfl hsize
  have hleaves : (parser.parse source).root.frontier.map Leaf.asLexed = List.replicate n leaf :=
    (Parser.makes_scratch Compilation.letter rfl hsize).unique hsize hmakes
  have hlength : (parser.parse source).root.frontier.length = n := by
    simpa using congrArg List.length hleaves
  have hleaf (j : Nat) (hj : j < (parser.parse source).root.frontier.length) :
      ((parser.parse source).root.frontier[j]).asLexed = leaf := by
    have hmem := List.mem_map_of_mem (f := Leaf.asLexed) (List.getElem_mem hj)
    rw [hleaves] at hmem
    exact List.eq_of_mem_replicate hmem
  have hbefore : Tree.totalLength ((parser.parse source).root.frontier.take i) = i := by
    have htaken : ((parser.parse source).root.frontier.take i).map Leaf.asLexed =
        List.replicate i leaf := by
      rw [List.map_take, hleaves, List.take_replicate, Nat.min_eq_left (Nat.le_of_lt hi)]
    have htotal : (((parser.parse source).root.frontier.take i).map Leaf.asLexed).map Leaf.length =
        List.replicate i 1 := by
      rw [htaken, List.map_replicate]
      rfl
    rw [List.map_map] at htotal
    change (((parser.parse source).root.frontier.take i).map Leaf.length) = _ at htotal
    rw [Tree.totalLength, htotal]
    simp
  have hlt : i < (parser.parse source).root.frontier.length := hlength ▸ hi
  have hget : (parser.parse source).leaves[i]? =
      some (i, (parser.parse source).root.frontier[i]) := by
    rw [← Array.getElem?_toList,
      SyntaxTree.leaves_toList (by rw [hfaithful.spells]; exact hfaithful.size), getElem?_spans,
      List.getElem?_eq_getElem hlt, hbefore, Nat.zero_add, Option.map_some]
  refine ⟨_, by rw [OldLeaf.getElem?_ofTree_eq_foldl, hget]; rfl, ?_⟩
  have hsame := hleaf i hlt
  refine ⟨by rw [OldLeaf.leaf_foldl]; exact hsame, rfl, ?_⟩
  change (false || e.touches i (i + Leaf.length (Leaf.asLexed _))
      (Leaf.lookahead (Leaf.asLexed _))) = _
  rw [hsame]
  rfl

/-- The letter at an offset of a text of one line. -/
def token (offset : Nat) : Lexer.Token where
  kind := ⟨2⟩
  range := ⟨offset, offset + 1⟩
  start := ⟨0, offset⟩
  stop := ⟨0, offset + 1⟩
  mode := 0
  nextMode := 0
  lookahead := 1
  flags := {}

private theorem makes_cons {source : Bytes} {offset n : Nat}
    (here : lexer.nextToken source ⟨offset, ⟨0, offset⟩, 0⟩ = some (token offset))
    (next : lexer.Makes source (offset + 1) 0 (List.replicate n leaf)) :
    lexer.Makes source offset 0 (List.replicate (n + 1) leaf) := by
  have hleaf : leaf = Leaf.ofToken (token offset) := by
    have hlength : offset + 1 - offset = 1 := Nat.add_sub_cancel_left offset 1
    simp [leaf, Leaf.ofToken, token, Range.length, hlength]
  rw [List.replicate_succ]
  nth_rewrite 1 [hleaf]
  exact .token here next

private theorem makes_three : lexer.Makes #[120, 120, 120] 0 0 (List.replicate 3 leaf) :=
  makes_cons (by cbv) (makes_cons (by cbv) (makes_cons (by cbv) (.done (by decide))))

private theorem makes_four : lexer.Makes #[120, 120, 120, 120] 0 0 (List.replicate 4 leaf) :=
  makes_cons (by cbv)
    (makes_cons (by cbv) (makes_cons (by cbv) (makes_cons (by cbv) (.done (by decide)))))

end Letter

/-- What truthful edits leave clean is not read again: where the reader stands at a clean leaf of
the old tree in the mode of that leaf, it takes the leaf over. The exception are leaves that stand
behind what an edit took away: a leaf inside of the removed range keeps its offset, and the reader
does not look past it before it has come to that offset. -/
theorem clean_taken_over (k : Compilation) {t : SyntaxTree} (ht : Parsed k.language t)
    {edits : List Edit} {source : Bytes} (hedits : Edit.Leads edits t.source source) {i : Nat}
    {c : Lexer.Cursor} {s : TokenStream}
    (hreading : TokenStream.Reading k.lexer source t.source (OldLeaf.ofTree t edits) i c s)
    {j : Nat} {o : OldLeaf} (hold : (OldLeaf.ofTree t edits)[j]? = some o)
    (hclean : o.dirty = false) (hstart : o.start = c.offset) (hmode : o.leaf.mode = c.mode) :
    (TokenStream.relex k.lexer source t.source (OldLeaf.ofTree t edits)).tokens[s.tokens.size]? =
        some ⟨o.leaf.asLexed, some j⟩ ∨
      (∃ e ∈ edits, e.newEnd < e.oldEnd) ∧
        ∃ n < j, ∃ b, (OldLeaf.ofTree t edits)[n]? = some b ∧ b.dirty = true ∧
          c.offset ≤ b.start := by
  have hfaithful : t.Faithful := faithful_of_parsed k ht
  by_cases hbefore : ∀ n < j, ∀ b, (OldLeaf.ofTree t edits)[n]? = some b → b.start < c.offset
  · left
    obtain ⟨inside, d, htake⟩ :=
      OldLeaf.takeOver_of_clean k.lexer hfaithful hedits hold hclean hstart hmode
    exact hreading.taken (TokenStream.sound_ofTree hfaithful edits) inside hold hbefore htake
  · right
    push Not at hbefore
    obtain ⟨n, hn, b, hb, hle⟩ := hbefore
    refine ⟨?_, n, hn, b, hb, ?_, hle⟩
    · by_contra hnone
      push Not at hnone
      have := OldLeaf.start_lt_of_longer hfaithful hnone hn hb hold
      omega
    · by_contra hnot
      have := OldLeaf.start_lt_of_clean hfaithful hedits hn hb hold (by simpa using hnot)
      omega

/-- The third of three letters is taken over after the first was removed. -/
theorem clean_taken_over_letter :
    (TokenStream.relex Letter.lexer #[120, 120] #[120, 120, 120]
      (OldLeaf.ofTree (Letter.parser.parse #[120, 120, 120])
      [{ start := 0, oldEnd := 1, newEnd := 0 }])).tokens[1]? = some ⟨Letter.leaf, some 2⟩ := by
  let e : Edit := { start := 0, oldEnd := 1, newEnd := 0 }
  have hturns : e.Turns #[120, 120, 120] #[120, 120] := ⟨by decide, by decide, #[], rfl, by decide⟩
  obtain ⟨o₀, h₀, first⟩ :=
    Letter.ofTree_letters (by decide) Letter.makes_three e (i := 0) (by decide)
  obtain ⟨o₁, h₁, second⟩ :=
    Letter.ofTree_letters (by decide) Letter.makes_three e (i := 1) (by decide)
  obtain ⟨o₂, h₂, third⟩ :=
    Letter.ofTree_letters (by decide) Letter.makes_three e (i := 2) (by decide)
  have hskip : TokenStream.skipBefore
      (OldLeaf.ofTree (Letter.parser.parse #[120, 120, 120]) [e]) 0 0 = 0 :=
    TokenStream.skipBefore_eq (Nat.le_refl 0) (fun n hn => absurd hn (Nat.not_lt_zero n))
      h₀ (Nat.zero_le _)
  have hreading : TokenStream.Reading Letter.lexer #[120, 120] #[120, 120, 120]
      (OldLeaf.ofTree (Letter.parser.parse #[120, 120, 120]) [e]) 0 .start {} := .start
  have hlexed :=
    hreading.lex (t := Letter.token 0) (by decide) (fun o ho => ?_) (by cbv) (by decide)
  · have htaken := clean_taken_over Compilation.letter (t := Letter.parser.parse #[120, 120, 120])
      (.parse rfl (by decide) (by simp)) (.cons hturns (.nil _)) hlexed h₂ third.dirty third.start
      (congrArg Leaf.mode third.leaf)
    rw [third.leaf] at htaken
    refine htaken.resolve_right ?_
    rintro ⟨-, n, hn, b, hb, -, hle⟩
    obtain rfl | rfl : n = 0 ∨ n = 1 := by omega
    · rw [h₀] at hb
      obtain rfl := Option.some.inj hb
      rw [first.start] at hle
      exact absurd hle (by decide)
    · rw [h₁] at hb
      obtain rfl := Option.some.inj hb
      rw [second.start] at hle
      exact absurd hle (by decide)
  · change (OldLeaf.ofTree _ _)[TokenStream.skipBefore _ 0 0]? = some o at ho
    rw [hskip, h₀] at ho
    obtain rfl := Option.some.inj ho
    exact TokenStream.takeOver_of_dirty (first.dirty.trans (by decide))

/-- The last of four letters is read again after the first two were removed: the second, which stood
in the removed range, keeps its offset, where the last one stands now. -/
theorem letter_left_behind :
    ∃ i c s o, TokenStream.Reading Letter.lexer #[120, 120] #[120, 120, 120, 120]
      (OldLeaf.ofTree (Letter.parser.parse #[120, 120, 120, 120])
        [{ start := 0, oldEnd := 2, newEnd := 0 }]) i c s ∧
    (OldLeaf.ofTree (Letter.parser.parse #[120, 120, 120, 120])
      [{ start := 0, oldEnd := 2, newEnd := 0 }])[3]? = some o ∧
    o.dirty = false ∧ o.start = c.offset ∧ o.leaf.mode = c.mode ∧
    (TokenStream.relex Letter.lexer #[120, 120] #[120, 120, 120, 120]
      (OldLeaf.ofTree (Letter.parser.parse
      #[120, 120, 120, 120]) [{ start := 0, oldEnd := 2, newEnd := 0 }])).tokens[s.tokens.size]? =
        some ⟨Letter.leaf, none⟩ := by
  let e : Edit := { start := 0, oldEnd := 2, newEnd := 0 }
  let old := OldLeaf.ofTree (Letter.parser.parse #[120, 120, 120, 120]) [e]
  obtain ⟨o₀, h₀, first⟩ :=
    Letter.ofTree_letters (by decide) Letter.makes_four e (i := 0) (by decide)
  obtain ⟨o₁, h₁, second⟩ :=
    Letter.ofTree_letters (by decide) Letter.makes_four e (i := 1) (by decide)
  obtain ⟨o₃, h₃, last⟩ :=
    Letter.ofTree_letters (by decide) Letter.makes_four e (i := 3) (by decide)
  have hskip₀ : TokenStream.skipBefore old 0 0 = 0 :=
    TokenStream.skipBefore_eq (Nat.le_refl 0) nofun h₀ (Nat.zero_le _)
  have hskip₁ : TokenStream.skipBefore old 1 0 = 1 := by
    refine TokenStream.skipBefore_eq (Nat.zero_le 1) (fun n hn o ho => ?_) h₁
      (second.start ▸ by decide)
    obtain rfl := Nat.lt_one_iff.1 hn
    rw [h₀] at ho
    rw [← Option.some.inj ho, first.start]
    decide
  have hreading : TokenStream.Reading Letter.lexer #[120, 120] #[120, 120, 120, 120] old 0
      .start {} := .start
  have hlexed :=
    hreading.lex (t := Letter.token 0) (by decide) (fun o ho => ?_) (by cbv) (by decide)
  · have hagain :=
      hlexed.lex (t := Letter.token 1) (by decide) (fun o ho => ?_) (by cbv) (by decide)
    · refine ⟨_, _, _, o₃, hlexed, h₃, last.dirty, last.start, congrArg Leaf.mode last.leaf, ?_⟩
      rw [← hagain.relexFrom_eq]
      exact TokenStream.getElem?_relexFrom _ _ _ _ _ _ _ rfl
    · change old[TokenStream.skipBefore old 1 (TokenStream.skipBefore old 0 0)]? = some o at ho
      rw [hskip₀, hskip₁, h₁] at ho
      rw [← Option.some.inj ho]
      exact TokenStream.takeOver_of_dirty (second.dirty.trans (by decide))
  · change old[TokenStream.skipBefore old 0 0]? = some o at ho
    rw [hskip₀, h₀] at ho
    rw [← Option.some.inj ho]
    exact TokenStream.takeOver_of_dirty (first.dirty.trans (by decide))

end Reparse
