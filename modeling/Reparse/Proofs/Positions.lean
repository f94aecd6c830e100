import Mathlib.Data.List.Induction
import Reparse.Proofs.Damage
import Reparse.Proofs.Search

/-! # Positions agree, however they are found -/
namespace Reparse
open Data Text

namespace Text

variable {bs cs : List UInt8} {offset i : Nat}

/-! ## Walks -/

private theorem lastLineFeed?_append (bs cs : List UInt8) :
    lastLineFeed? (bs ++ cs) = ((lastLineFeed? cs).map (bs.length + ·)).or (lastLineFeed? bs) := by
  unfold lastLineFeed?
  rw [List.reverse_append, List.findIdx?_append, List.length_append]
  cases hc : cs.reverse.findIdx? (· == lineFeed) with
  | some j =>
    have hj : j < cs.length := by simpa using (List.findIdx?_eq_some_iff_findIdx_eq.1 hc).1
    simp only [Option.some_or, Option.map_some, Option.some.injEq]
    omega
  | none =>
    simp only [Option.none_or, Option.map_none, Option.map_map, List.length_reverse]
    congr 1
    funext j
    simp only [Function.comp_apply]
    omega

private theorem lastLineFeed?_lt (h : lastLineFeed? bs = some i) : i < bs.length := by
  obtain ⟨j, hj, rfl⟩ := Option.map_eq_some_iff.1 h
  have hlt : j < bs.length := by simpa using (List.findIdx?_eq_some_iff_findIdx_eq.1 hj).1
  omega

private theorem count_of_lastLineFeed? (h : lastLineFeed? bs = none) : bs.count lineFeed = 0 := by
  have hnone := List.findIdx?_eq_none_iff.1 (Option.map_eq_none_iff.1 h)
  exact List.count_eq_zero.2 fun hmem => by simpa using hnone lineFeed (List.mem_reverse.2 hmem)

/-- A walk can be interrupted anywhere. -/
theorem Position.advance_append (p : Position) (a b : Bytes) :
    p.advance (a ++ b) = (p.advance a).advance b := by
  unfold advance
  rw [Array.toList_append, lastLineFeed?_append, List.count_append, Array.size_append]
  simp only [plus, clamp, Array.length_toList]
  cases hb : lastLineFeed? b.toList with
  | some j =>
    have hj : j < b.size := by simpa using lastLineFeed?_lt hb
    cases ha : lastLineFeed? a.toList with
    | some i =>
      simp only [Option.map_some, Option.some_or, Position.mk.injEq]
      omega
    | none =>
      simp only [Option.map_some, Option.some_or, count_of_lastLineFeed? ha, Position.mk.injEq]
      omega
  | none =>
    cases ha : lastLineFeed? a.toList with
    | some i =>
      have hi : i < a.size := by simpa using lastLineFeed?_lt ha
      simp only [Option.map_none, Option.none_or, count_of_lastLineFeed? hb, Position.mk.injEq]
      omega
    | none =>
      simp only [Option.map_none, Option.none_or, Position.mk.injEq, true_and]
      omega

/-- Where the last line starts. -/
def lineStart (bs : List UInt8) : Nat := (lastLineFeed? bs).elim 0 (· + 1)

private theorem lineStart_le (bs : List UInt8) : lineStart bs ≤ bs.length := by
  unfold lineStart
  cases h : lastLineFeed? bs with
  | none => exact Nat.zero_le _
  | some i => exact lastLineFeed?_lt h

private theorem Position.zero_advance {bytes : Bytes} (h : bytes.size ≤ maxSize) :
    Position.zero.advance bytes =
      ⟨bytes.toList.count lineFeed, bytes.size - lineStart bytes.toList⟩ := by
  have hcount : bytes.toList.count lineFeed ≤ bytes.size := by
    simpa using List.count_le_length (l := bytes.toList)
  unfold advance lineStart
  cases hlast : lastLineFeed? bytes.toList with
  | some i =>
    simp only [zero, Option.elim_some, Position.mk.injEq, plus, clamp]
    omega
  | none =>
    simp only [zero, Option.elim_none, Position.mk.injEq, plus, clamp, count_of_lastLineFeed? hlast,
      true_and]
    omega

/-! ## Starts of lines -/

/-- The offsets behind the line feeds of some bytes that stand at an offset. -/
def breaks (offset : Nat) : List UInt8 → List Nat
  | [] => []
  | b :: bs =>
    if b = lineFeed then (offset + 1) :: breaks (offset + 1) bs else breaks (offset + 1) bs

theorem breaks_append (offset : Nat) (bs cs : List UInt8) :
    breaks offset (bs ++ cs) = breaks offset bs ++ breaks (offset + bs.length) cs := by
  induction bs generalizing offset with
  | nil => rfl
  | cons b bs ih =>
    have hlength : offset + 1 + bs.length = offset + (b :: bs).length := by
      rw [List.length_cons]
      omega
    rw [List.cons_append, breaks, breaks, ih, hlength]
    split <;> rfl

private theorem length_breaks (offset : Nat) (bs : List UInt8) :
    (breaks offset bs).length = bs.count lineFeed := by
  induction bs generalizing offset with
  | nil => rfl
  | cons b bs ih =>
    rw [breaks, List.count_cons]
    split
    · next h => simp [ih, h]
    · next h => simp [ih, h]

theorem breaks_bounds {n : Nat} (h : n ∈ breaks offset bs) :
    offset < n ∧ n ≤ offset + bs.length := by
  induction bs generalizing offset with
  | nil => contradiction
  | cons b bs ih =>
    have hrest (h : n ∈ breaks (offset + 1) bs) : offset < n ∧ n ≤ offset + (b :: bs).length := by
      have hbounds := ih h
      rw [List.length_cons]
      omega
    rw [breaks] at h
    split at h
    · rcases List.mem_cons.1 h with rfl | h
      · rw [List.length_cons]
        omega
      · exact hrest h
    · exact hrest h

private theorem sorted_breaks (offset : Nat) (bs : List UInt8) :
    (offset :: breaks offset bs).Pairwise (· < ·) := by
  induction bs generalizing offset with
  | nil => exact List.pairwise_singleton _ _
  | cons b bs ih =>
    refine List.pairwise_cons.2 ⟨fun n hn => (breaks_bounds hn).1, ?_⟩
    rw [breaks]
    split
    · exact ih (offset + 1)
    · exact (List.pairwise_cons.1 (ih (offset + 1))).2

/-- The last line starts where the count of line feeds says. -/
private theorem getElem?_breaks (bs : List UInt8) :
    (0 :: breaks 0 bs)[bs.count lineFeed]? = some (lineStart bs) := by
  induction bs using List.reverseRecOn with
  | nil => rfl
  | append_singleton bs b ih =>
    have hlength := length_breaks 0 bs
    unfold lineStart at ih ⊢
    rw [breaks_append, List.count_append, lastLineFeed?_append, ← List.cons_append]
    by_cases hb : b = lineFeed
    · subst hb
      rw [List.getElem?_append_right (by simp [hlength])]
      simp [breaks, hlength, lastLineFeed?]
    · have hnone : lastLineFeed? [b] = none := by simp [lastLineFeed?, hb]
      rw [List.getElem?_append_left (by simp [hlength, hb])]
      simpa [hb, hnone] using ih

namespace LineIndex

variable {text : Bytes}

theorem toList_lineStarts (h : text.size ≤ maxSize) :
    (ofText text).lineStarts.toList = 0 :: breaks 0 text.toList := by
  have key (n : Nat) (hn : n ≤ text.size) : ((List.range n).foldl
      (fun starts i => if text[i]? = some lineFeed then starts.push (clamp (i + 1)) else starts)
      #[0]).toList =
        0 :: breaks 0 (text.toList.take n) := by
    induction n with
    | zero => rfl
    | succ n ih =>
      have hclamp : clamp (n + 1) = n + 1 := clamp_of_le (by omega)
      rw [List.range_succ, List.foldl_append, List.take_add_one, breaks_append,
        List.foldl_cons, List.foldl_nil, ← List.cons_append, ← ih (by omega), Array.getElem?_toList,
        Array.getElem?_eq_getElem (by omega)]
      by_cases hfeed : text[n] = lineFeed
      · simp [hfeed, breaks, hclamp]
        omega
      · simp [hfeed, breaks]
  unfold ofText
  rw [← Array.foldl_toList, Array.toList_range, key text.size (Nat.le_refl _),
    ← Array.length_toList, List.take_length]

private theorem sorted_lineStarts (h : text.size ≤ maxSize) :
    (ofText text).lineStarts.toList.Pairwise (· < ·) := by
  rw [toList_lineStarts h]
  exact sorted_breaks 0 text.toList

/-- The search finds the last entry that is not above the target. -/
theorem searchWindow_of_sorted {row : Array Nat} (hsorted : row.toList.Pairwise (· < ·))
    {i entry target : Nat} (hentry : row[i]? = some entry) (hle : entry ≤ target)
    (hnext : ∀ next, row[i + 1]? = some next → target < next) :
    searchWindow (fun j => compare (row[j]?.getD 0) target == .gt) 0 row.size = i := by
  obtain ⟨hi, hget⟩ := Array.getElem?_eq_some_iff.1 hentry
  have hlt {j j' : Nat} (hj : j < row.size) (hj' : j' < row.size) (h : j < j') : row[j] < row[j'] :=
    List.pairwise_iff_getElem.1 hsorted j j' hj hj' h
  refine searchWindow_eq (Nat.zero_le i) (by omega) (fun j hj => ?_) fun j hij hj => ?_
  · rw [beq_eq_false_iff_ne, Array.getElem?_eq_getElem (by omega), Option.getD_some]
    refine mt Nat.compare_eq_gt.1 (Nat.not_lt.2 ?_)
    rcases Nat.lt_or_eq_of_le hj with hj | rfl
    · have := hlt (by omega) hi hj
      omega
    · omega
  · have htarget : target < row[i + 1] := hnext _ (Array.getElem?_eq_getElem (by omega))
    rw [beq_iff_eq, Array.getElem?_eq_getElem (by omega), Option.getD_some, Nat.compare_eq_gt]
    rcases Nat.lt_or_eq_of_le (Nat.succ_le_of_lt hij) with hj' | rfl
    · exact Nat.lt_trans htarget (hlt (by omega) (by omega) hj')
    · exact htarget

private theorem position_eq {index : LineIndex} {i start offset : Nat}
    (hsorted : index.lineStarts.toList.Pairwise (· < ·))
    (hstart : index.lineStarts[i]? = some start) (hle : start ≤ offset)
    (hnext : ∀ next, index.lineStarts[i + 1]? = some next → offset < next)
    (hlength : offset ≤ index.textLength) :
    index.position offset = ⟨i, offset - start⟩ := by
  have hne : index.lineStarts.size ≠ 0 :=
    Nat.ne_of_gt (Nat.zero_lt_of_lt (Array.getElem?_eq_some_iff.1 hstart).1)
  simp only [position, binarySearch, Nat.min_eq_left hlength, if_neg hne,
    searchWindow_of_sorted hsorted hstart hle hnext, hstart, Option.getD_some]
  rcases Nat.lt_or_eq_of_le hle with hle | rfl
  · rw [Nat.compare_eq_lt.2 hle]
    simp [hstart]
  · rw [Nat.compare_eq_eq.2 rfl]
    simp [hstart]

/-- The lines before and behind an offset. -/
theorem lines_at (h : text.size ≤ maxSize) {o : Nat} (ho : o ≤ text.size) :
    (ofText text).lineStarts[(text.toList.take o).count lineFeed]? =
      some (lineStart (text.toList.take o)) ∧
      ∀ next, (ofText text).lineStarts[(text.toList.take o).count lineFeed + 1]? =
        some next → o < next := by
  have hlength : (text.toList.take o).length = o := by
    rw [List.length_take, Array.length_toList, Nat.min_eq_left ho]
  have hsplit := toList_lineStarts h
  rw [← List.take_append_drop o text.toList, breaks_append, ← List.cons_append, hlength,
    Nat.zero_add] at hsplit
  simp only [← Array.getElem?_toList, hsplit]
  have hbreaks := length_breaks 0 (text.toList.take o)
  constructor
  · rw [List.getElem?_append_left (by simp [hbreaks])]
    exact getElem?_breaks _
  · intro next hnext
    rw [List.getElem?_append_right (by simp [hbreaks])] at hnext
    exact (breaks_bounds (List.mem_of_getElem? hnext)).1

theorem textLength_ofText (h : text.size ≤ maxSize) : (ofText text).textLength = text.size :=
  clamp_of_le h

private theorem lineStart_take_le (text : Bytes) (o : Nat) : lineStart (text.toList.take o) ≤ o :=
  Nat.le_trans (lineStart_le _) (List.length_take_le o _)

private theorem position_at (h : text.size ≤ maxSize) {o : Nat} (ho : o ≤ text.size) :
    (ofText text).position o =
      ⟨(text.toList.take o).count lineFeed, o - lineStart (text.toList.take o)⟩ := by
  obtain ⟨hstart, hnext⟩ := lines_at h ho
  exact position_eq (sorted_lineStarts h) hstart (lineStart_take_le text o) hnext
    (by rwa [textLength_ofText h])

private theorem position_ofText (h : text.size ≤ maxSize) {o : Nat} (ho : o ≤ text.size) :
    (ofText text).position o = Position.zero.advance (text.extract 0 o) := by
  have hsize : (text.extract 0 o).size = o := by
    rw [Array.size_extract, Nat.min_eq_left ho, Nat.sub_zero]
  have hprefix : (text.extract 0 o).toList = text.toList.take o := by simp
  rw [position_at h ho, Position.zero_advance (by omega), hprefix, hsize]

/-- No line starts behind the end. -/
theorem le_size_of_lineStarts (h : text.size ≤ maxSize) {i start : Nat}
    (hstart : (ofText text).lineStarts[i]? = some start) : start ≤ text.size := by
  rw [← Array.getElem?_toList, toList_lineStarts h] at hstart
  rcases List.mem_cons.1 (List.mem_of_getElem? hstart) with rfl | hmem
  · exact Nat.zero_le _
  · simpa using (breaks_bounds hmem).2

private theorem offset?_position (h : text.size < maxSize) {o : Nat} (ho : o ≤ text.size) :
    (ofText text).offset? ((ofText text).position o) = some o := by
  have hle : text.size ≤ maxSize := Nat.le_of_lt h
  obtain ⟨hstart, hnext⟩ := lines_at hle ho
  have hoffset : plus (lineStart (text.toList.take o)) (o - lineStart (text.toList.take o)) =
      o := by
    rw [plus, Nat.add_sub_cancel' (lineStart_take_le text o), clamp_of_le (by omega)]
  rw [position_at hle ho]
  simp only [offset?, hstart, Option.bind_eq_bind, Option.bind_some, hoffset]
  refine if_pos ?_
  cases hcase : (ofText text).lineStarts[(text.toList.take o).count lineFeed + 1]? with
  | some next => exact hnext next hcase
  | none =>
    rw [Option.getD_none, textLength_ofText hle, plus_of_le (show text.size + 1 ≤ maxSize from h)]
    omega

private theorem position_of_offset? (h : text.size < maxSize) {p : Position} {o : Nat}
    (ho : (ofText text).offset? p = some o) :
    (ofText text).position o = p := by
  have hle : text.size ≤ maxSize := Nat.le_of_lt h
  obtain ⟨start, hstart, ho⟩ := Option.bind_eq_some_iff.1 ho
  simp only [Option.ite_none_right_eq_some, Option.some.injEq] at ho
  obtain ⟨hlt, ho⟩ := ho
  have hlength := textLength_ofText hle
  have hbound : o ≤ text.size ∧ ∀ next, (ofText text).lineStarts[p.line + 1]? =
      some next → o < next := by
    cases hcase : (ofText text).lineStarts[p.line + 1]? with
    | some next =>
      rw [hcase, Option.getD_some, ho] at hlt
      have hnext := le_size_of_lineStarts hle hcase
      refine ⟨by omega, fun next' heq => ?_⟩
      rwa [← Option.some.inj heq]
    | none =>
      rw [hcase, Option.getD_none, hlength, plus_of_le (show text.size + 1 ≤ maxSize from h),
        ho] at hlt
      exact ⟨by omega, nofun⟩
  -- the sum has not been cut off, since it stays below the length
  have hsum : start + p.column = o := by
    unfold plus clamp at ho
    omega
  rw [position_eq (sorted_lineStarts hle) hstart (by omega) hbound.2
    (by rw [hlength]; exact hbound.1), ← hsum, Nat.add_sub_cancel_left]

end LineIndex
end Text

/-! ## Tokens -/

namespace Lexer

variable {lexer : Lexer} {source : Bytes} {c : Cursor} {t : Token}

/-- The cursor knows its position. -/
structure Cursor.Placed (source : Bytes) (c : Cursor) : Prop where
  inside : c.offset ≤ source.size
  point : c.point = Position.zero.advance (source.extract 0 c.offset)

private theorem placed_start (source : Bytes) : Cursor.start.Placed source where
  inside := Nat.zero_le _
  point := by simp [Cursor.start, Position.advance, lastLineFeed?, Position.zero, plus, clamp]

private theorem points_of_nextToken (hsize : source.size ≤ maxSize)
    (h : lexer.nextToken source c = some t) :
    t.start = c.point ∧ t.stop = c.point.advance (source.extract c.offset t.range.stop) := by
  have hunrecognized {byte : UInt8} {examinedEnd : Nat} (hbyte : source[c.offset]? = some byte) :
      (Unrecognized.atCursor c byte examinedEnd).toToken.stop =
        c.point.advance (source.extract c.offset
        (Unrecognized.atCursor c byte examinedEnd).toToken.range.stop) := by
    obtain ⟨hlt, hget⟩ := Array.getElem?_eq_some_iff.1 hbyte
    have hstop : (Unrecognized.atCursor c byte examinedEnd).toToken.range.stop = c.offset + 1 := by
      simp [Unrecognized.toToken, Unrecognized.range, Unrecognized.atCursor,
        Range.ofLength, clamp_of_le (show c.offset ≤ maxSize by omega)]
    have hbytes : source.extract c.offset (c.offset + 1) = #[byte] := by
      rw [Array.extract_succ_right (Nat.lt_succ_self _) hlt, hget,
        Array.extract_eq_empty_of_le (by omega)]
      rfl
    rw [hstop, hbytes]
    rfl
  cases nextToken_eq_some_iff.1 h with
  | unknownMode here => exact ⟨rfl, hunrecognized here⟩
  | noMatch here => exact ⟨rfl, hunrecognized here⟩
  | @rule _ mode length _ _ _ _ best numbered =>
    obtain ⟨-, hstop⟩ := mode.dfa.within_longestMatch source c.offset _ _ best
    refine ⟨rfl, ?_⟩
    simp only [token, clamp_of_le (show c.offset + length ≤ maxSize by omega)]

private theorem Cursor.Placed.after (hsize : source.size ≤ maxSize) (hc : c.Placed source)
    (h : lexer.nextToken source c = some t) : (Cursor.after t).Placed source := by
  have hcovers := covers_of_nextToken hsize h
  refine ⟨hcovers.inside, ?_⟩
  simp only [Cursor.after]
  rw [(points_of_nextToken hsize h).2, hc.point, ← Position.advance_append,
    Array.extract_append_extract, Nat.zero_min, Nat.max_eq_right (Nat.le_of_lt hcovers.forward)]

/-- The points of a token are where its bytes start and stop. -/
structure Token.Placed (source : Bytes) (t : Token) : Prop where
  forward : t.range.start < t.range.stop
  inside : t.range.stop ≤ source.size
  start : t.start = Position.zero.advance (source.extract 0 t.range.start)
  stop : t.stop = Position.zero.advance (source.extract 0 t.range.stop)

private theorem Cursor.Placed.token (hsize : source.size ≤ maxSize) (hc : c.Placed source)
    (h : lexer.nextToken source c = some t) : t.Placed source := by
  have hcovers := covers_of_nextToken hsize h
  refine ⟨hcovers.start ▸ hcovers.forward, hcovers.inside, ?_, (hc.after hsize h).point⟩
  rw [(points_of_nextToken hsize h).1, hc.point, hcovers.start]

private theorem placed_of_mem_tokenizeFrom (hsize : source.size ≤ maxSize) (hc : c.Placed source)
    {done : Array Token} (hdone : ∀ t ∈ done, t.Placed source) :
    ∀ t ∈ lexer.tokenizeFrom source c done, t.Placed source := by
  fun_induction tokenizeFrom lexer source c done with
  | case1 => exact hdone
  | case2 c done t ht _ ih =>
    refine ih (hc.after hsize ht) fun u hu => ?_
    rcases Array.mem_push.1 hu with hu | rfl
    · exact hdone u hu
    · exact hc.token hsize ht
  | case3 => exact hdone

private theorem placed_of_mem_tokenize (hsize : source.size ≤ maxSize) :
    ∀ t ∈ lexer.tokenize source, t.Placed source :=
  placed_of_mem_tokenizeFrom hsize (placed_start source) (by simp)

end Lexer

/-! ## Edits -/

namespace Edit

variable (source : Bytes) (range : Range) (replacement : Bytes)

private theorem size_head :
    (source.extract 0 (splice source range replacement).2.start ++ replacement).size =
      (splice source range replacement).2.newEnd := by
  have hturns := turns_splice source range replacement
  rw [Array.size_append, Array.size_extract,
    Nat.min_eq_left (Nat.le_trans hturns.forward hturns.inside), Nat.sub_zero]
  rfl

private theorem size_splice : ((splice source range replacement).1.size : Int) =
    source.size + (splice source range replacement).2.delta := by
  have hinside := (turns_splice source range replacement).inside
  have htail : (source.extract (splice source range replacement).2.oldEnd source.size).size =
      source.size - (splice source range replacement).2.oldEnd := by
    rw [Array.size_extract, Nat.min_self]
  have hsize : (splice source range replacement).1.size =
      (splice source range replacement).2.newEnd +
        (source.size - (splice source range replacement).2.oldEnd) := by
    rw [← size_head, ← htail, ← Array.size_append]
    rfl
  unfold delta
  omega

/-- The points of an edit are where its bytes start and stop, in the old text and in the new one. -/
theorem points_splice :
    (splice source range replacement).2.startPoint =
        Position.zero.advance (source.extract 0 (splice source range replacement).2.start) ∧
      (splice source range replacement).2.oldEndPoint =
        Position.zero.advance (source.extract 0 (splice source range replacement).2.oldEnd) ∧
      (splice source range replacement).2.newEndPoint = Position.zero.advance
        ((splice source range replacement).1.extract 0
          (splice source range replacement).2.newEnd) := by
  refine ⟨rfl, ?_, ?_⟩
  · have hforward := (turns_splice source range replacement).forward
    simp only [splice, replace] at hforward ⊢
    rw [← Position.advance_append, Array.extract_append_extract, Nat.zero_min,
      Nat.max_eq_right hforward]
  · have hhead : (splice source range replacement).1.extract 0
        (splice source range replacement).2.newEnd =
          source.extract 0 (splice source range replacement).2.start ++ replacement := by
      rw [← size_head]
      exact Array.extract_append_left.trans Array.extract_size
    rw [hhead, Position.advance_append]
    rfl

end Edit

/-! ## All positions -/

/-- Lookups in the index of a text, walks over its bytes, the points of tokens and those of edits
agree. -/
theorem positions_agree {text : Bytes} (htext : text.size < maxSize) :
    (∀ o ≤ text.size, (LineIndex.ofText text).position o =
      Position.zero.advance (text.extract 0 o) ∧
        (LineIndex.ofText text).offset? ((LineIndex.ofText text).position o) = some o) ∧
      (∀ p o, (LineIndex.ofText text).offset? p = some o → (LineIndex.ofText text).position o = p) ∧
      (∀ (lexer : Lexer), ∀ t ∈ lexer.tokenize text, t.start =
        (LineIndex.ofText text).position t.range.start ∧
        t.stop = (LineIndex.ofText text).position t.range.stop) ∧
      ∀ range replacement new e, Edit.splice text range replacement = (new, e) →
        new.size < maxSize →
        e.startPoint = (LineIndex.ofText text).position e.start ∧
          e.oldEndPoint = (LineIndex.ofText text).position e.oldEnd ∧
          e.newEndPoint = (LineIndex.ofText new).position e.newEnd ∧
            (new.size : Int) = text.size + e.delta := by
  have hle : text.size ≤ maxSize := Nat.le_of_lt htext
  refine ⟨fun o ho => ⟨LineIndex.position_ofText hle ho, LineIndex.offset?_position htext ho⟩,
    fun p o => LineIndex.position_of_offset? htext, fun lexer t ht => ?_,
    fun range replacement new e he hnew => ?_⟩
  · have hplaced := Lexer.placed_of_mem_tokenize hle t ht
    have hstart : t.range.start ≤ text.size :=
      Nat.le_trans (Nat.le_of_lt hplaced.forward) hplaced.inside
    exact ⟨by rw [hplaced.start, LineIndex.position_ofText hle hstart],
      by rw [hplaced.stop, LineIndex.position_ofText hle hplaced.inside]⟩
  · have hturns := Edit.turns_splice text range replacement
    have hsize := Edit.size_splice text range replacement
    obtain ⟨hstart, hold, hend⟩ := Edit.points_splice text range replacement
    rw [he] at hturns hsize hstart hold hend
    simp only at hsize hstart hold hend
    have hnewEnd : e.newEnd ≤ new.size := by
      have hinside : e.oldEnd ≤ text.size := hturns.inside
      unfold Edit.delta at hsize
      omega
    exact ⟨by
      rw [hstart, LineIndex.position_ofText hle (Nat.le_trans hturns.forward hturns.inside)],
        by rw [hold, LineIndex.position_ofText hle hturns.inside],
      by rw [hend, LineIndex.position_ofText (Nat.le_of_lt hnew) hnewEnd], hsize⟩

/-- A text of two lines, read by a lexer without modes, and a replacement from its line feed on. -/
theorem positions_agree_two_lines :
    (LineIndex.ofText #[97, 10, 98]).position 2 =
      Position.zero.advance (#[97, 10, 98].extract 0 2) ∧
      (LineIndex.ofText #[97, 10, 98]).position 2 = ⟨1, 0⟩ ∧
      (∃ t ∈ Lexer.tokenize ⟨#[], #[], none⟩ #[97, 10, 98], t.stop = ⟨1, 1⟩ ∧
        t.stop = (LineIndex.ofText #[97, 10, 98]).position t.range.stop) ∧
      (Edit.splice #[97, 10, 98] ⟨1, 9⟩ #[10, 10, 99]).2.newEndPoint =
        (LineIndex.ofText #[97, 10, 10, 99]).position 4 := by
  obtain ⟨hposition, hoffset, htokens, hedits⟩ :=
    positions_agree (show (#[97, 10, 98] : Bytes).size < maxSize by decide)
  have htoken : (Lexer.tokenize ⟨#[], #[], none⟩ #[97, 10, 98])[2]? =
      some ⟨.error, ⟨2, 3⟩, ⟨1, 0⟩, ⟨1, 1⟩, 0, 0, 0, { error := true }⟩ := by cbv
  have hmem := Array.mem_of_getElem? htoken
  refine ⟨(hposition 2 (by decide)).1, hoffset ⟨1, 0⟩ 2 (by decide),
    ⟨_, hmem, rfl, (htokens _ _ hmem).2⟩, ?_⟩
  exact (hedits ⟨1, 9⟩ #[10, 10, 99] #[97, 10, 10, 99] _ rfl (by decide)).2.2.1

end Reparse
