import Reparse.Proofs.Lexing
import Reparse.Tree.Basic

/-! # Tokens depend on the bytes that were read to find them, and on no others -/
namespace Reparse
open Text

/-- Two texts have the same `n` bytes from an offset of each on. Where one of them ends, so does the
other. -/
def Agree (a b : Bytes) (i j n : Nat) : Prop := ∀ m < n, a[i + m]? = b[j + m]?

instance (a b : Bytes) (i j n : Nat) : Decidable (Agree a b i j n) :=
  inferInstanceAs (Decidable (∀ m < n, a[i + m]? = b[j + m]?))

namespace Agree

variable {a b c : Bytes} {i j k n m : Nat}

theorem refl (a : Bytes) (i n : Nat) : Agree a a i i n := fun _ _ => rfl

theorem trans (h : Agree a b i j n) (h' : Agree b c j k n) : Agree a c i k n :=
  fun m hm => (h m hm).trans (h' m hm)

theorem mono (h : Agree a b i j n) (hle : m ≤ n) : Agree a b i j m :=
  fun l hl => h l (Nat.lt_of_lt_of_le hl hle)

theorem extract_eq (h : Agree a b i j n) (ha : i + n ≤ a.size) (hb : j + n ≤ b.size) :
    a.extract i (i + n) = b.extract j (j + n) := by
  refine Array.ext (by simp only [Array.size_extract]; omega) fun m hm hm' => ?_
  have hlt : m < n := by
    rw [Array.size_extract] at hm
    omega
  have hbyte := h m hlt
  rw [Array.getElem?_eq_getElem (by omega), Array.getElem?_eq_getElem (by omega)] at hbyte
  rw [Array.getElem_extract, Array.getElem_extract]
  exact Option.some.inj hbyte

end Agree

namespace Lexer

/-! ## Runs of an automaton -/

namespace Dfa

variable {dfa : Dfa} {a b input : Bytes} {start state i j : Nat} {best : Option (Nat × Nat)}

/-- A run reads on at least one byte, or notices the end, and never goes further than that. -/
theorem examined_matchFrom (hi : i ≤ input.size) :
    i < (dfa.matchFrom input start state best i).examinedEnd ∧
    (dfa.matchFrom input start state best i).examinedEnd ≤ input.size + 1 := by
  fun_induction matchFrom dfa input start state best i with
  | case1 state best i h => exact ⟨Nat.lt_succ_self i, by simp only; omega⟩
  | case2 state best i h next hnext best' ih =>
    obtain ⟨hlt, hle⟩ := ih h
    exact ⟨by omega, hle⟩
  | case3 state best i h => exact ⟨by simp only; omega, Nat.le_refl _⟩

/-- The match that is found was read to its end. -/
private theorem length_le_examined_matchFrom (hi : start ≤ i) (hsize : i ≤ input.size)
    (hbest : ∀ n r, best = some (n, r) → start + n ≤ i) {n r : Nat}
    (h : (dfa.matchFrom input start state best i).best = some (n, r)) :
    start + n ≤ (dfa.matchFrom input start state best i).examinedEnd := by
  fun_induction matchFrom dfa input start state best i with
  | case1 state best i hlt =>
    have hle := hbest n r h
    simp only
    omega
  | case2 state best i hlt next hnext best' ih =>
    refine ih (by omega) hlt (fun n' r' hfound => ?_) h
    simp only [best'] at hfound
    split at hfound
    · obtain ⟨rfl, -⟩ := Prod.mk.inj (Option.some.inj hfound)
      omega
    · exact Nat.le_succ_of_le (hbest n' r' hfound)
  | case3 state best i hlt =>
    have hle := hbest n r h
    simp only
    omega

private theorem matchFrom_of_step {next : Nat} (hi : i < input.size)
    (h : dfa.step state input[i] = some next) :
    dfa.matchFrom input start state best i =
      dfa.matchFrom input start
        next (((dfa.accept next).map (i + 1 - start, ·)).or best) (i + 1) := by
  rw [matchFrom, dif_pos hi, h]
  dsimp only
  cases dfa.accept next <;> rfl

/-- Where the bytes that a run reads stand in another text, the run is the same there. -/
theorem matchFrom_congr (hi : start ≤ i) (ha : i ≤ a.size) (hb : j + (i - start) ≤ b.size)
    (h : Agree a b start j ((dfa.matchFrom a start state best i).examinedEnd - start)) :
    (dfa.matchFrom b j state best (j + (i - start))).best =
      (dfa.matchFrom a start state best i).best ∧
      (dfa.matchFrom b j state best (j + (i - start))).examinedEnd - j =
        (dfa.matchFrom a start state best i).examinedEnd - start := by
  fun_induction matchFrom dfa a start state best i with
  | case1 state best i hlt hstep =>
    have hbyte := h (i - start) (by simp only; omega)
    rw [Nat.add_sub_cancel' hi, Array.getElem?_eq_getElem hlt] at hbyte
    obtain ⟨hlt', hget⟩ := Array.getElem?_eq_some_iff.1 hbyte.symm
    rw [matchFrom, dif_pos hlt', hget, hstep]
    exact ⟨rfl, by simp only; omega⟩
  | case2 state best i hlt next hstep best' ih =>
    have hread : i + 1 < (dfa.matchFrom a start next best' (i + 1)).examinedEnd :=
      (examined_matchFrom hlt).1
    have hbyte := h (i - start) (by omega)
    rw [Nat.add_sub_cancel' hi, Array.getElem?_eq_getElem hlt] at hbyte
    obtain ⟨hlt', hget⟩ := Array.getElem?_eq_some_iff.1 hbyte.symm
    have hsucc : j + (i - start) + 1 = j + (i + 1 - start) := by omega
    have hbest : ((dfa.accept next).map (j + (i - start) + 1 - j, ·)).or best = best' := by
      rw [hsucc, Nat.add_sub_cancel_left]
      simp only [best']
      cases dfa.accept next <;> rfl
    rw [matchFrom_of_step hlt' (by rw [hget]; exact hstep), hbest, hsucc]
    exact ih (by omega) hlt (by omega) h
  | case3 state best i hlt =>
    have hbyte := h (i - start) (by simp only; omega)
    rw [Nat.add_sub_cancel' hi, Array.getElem?_eq_none (Nat.le_of_not_lt hlt)] at hbyte
    have hle := Array.getElem?_eq_none_iff.1 hbyte.symm
    rw [matchFrom, dif_neg (Nat.not_lt.2 hle)]
    exact ⟨rfl, by simp only; omega⟩

/-- Where the bytes that are read for a match stand in another text, the match is the same there. -/
theorem longestMatch_congr (ha : start ≤ a.size) (hb : j ≤ b.size)
    (h : Agree a b start j ((dfa.longestMatch a start).examinedEnd - start)) :
    (dfa.longestMatch b j).best = (dfa.longestMatch a start).best ∧
      (dfa.longestMatch b j).examinedEnd - j = (dfa.longestMatch a start).examinedEnd - start := by
  have hcongr := matchFrom_congr (j := j) (b := b) (Nat.le_refl start) ha (by omega) h
  rwa [Nat.sub_self, Nat.add_zero] at hcongr

private theorem examined_longestMatch (h : start ≤ input.size) :
    start < (dfa.longestMatch input start).examinedEnd ∧
    (dfa.longestMatch input start).examinedEnd ≤ input.size + 1 := examined_matchFrom h

private theorem length_le_examined_longestMatch (hstart : start ≤ input.size) {n r : Nat}
    (h : (dfa.longestMatch input start).best = some (n, r)) :
    start + n ≤ (dfa.longestMatch input start).examinedEnd :=
  length_le_examined_matchFrom (Nat.le_refl start) hstart (fun _ _ hnone => by contradiction) h

end Dfa

end Lexer

/-! ## Tokens -/

/-- How far the lexer read from the start of a token to find it. -/
def Leaf.reach (l : Leaf) : Nat := l.length + l.lookahead

namespace Lexer

variable {lexer : Lexer} {a b : Bytes} {c d : Cursor} {t : Token} {byte : UInt8} {rule : Outcome}
  {length examinedEnd : Nat}

private theorem ofToken_atCursor : Leaf.ofToken (Unrecognized.atCursor c byte examinedEnd).toToken =
    ⟨.error, .error, 1, clamp (examinedEnd - (c.offset + 1)), c.mode, { error := true }⟩ := by
  simp [Leaf.ofToken, Unrecognized.toToken, Unrecognized.range, Unrecognized.atCursor,
    Range.ofLength, Range.length]

private theorem ofToken_token (hstop : c.offset + length ≤ maxSize) :
    Leaf.ofToken (lexer.token a c rule length examinedEnd) =
      ⟨rule.kind, rule.kind, length, clamp (examinedEnd - (c.offset + length)), c.mode,
        { word := lexer.word.any (·.accepts (a.extract c.offset (c.offset + length))) }⟩ := by
  have hstart : clamp c.offset = c.offset := clamp_of_le (by omega)
  simp [Leaf.ofToken, token, Range.length, hstart, clamp_of_le hstop]

private theorem reach_atCursor (hread : c.offset < examinedEnd)
    (hsize : examinedEnd ≤ maxSize + 1) :
    (Leaf.ofToken (Unrecognized.atCursor c byte examinedEnd).toToken).reach =
      examinedEnd - c.offset := by
  rw [ofToken_atCursor, clamp_of_le (by omega)]
  simp only [Leaf.reach]
  omega

private theorem reach_token (hread : c.offset + length ≤ examinedEnd) (hpos : 0 < length)
    (hsize : examinedEnd ≤ maxSize + 1) (hstop : c.offset + length ≤ maxSize) :
    (Leaf.ofToken (lexer.token a c rule length examinedEnd)).reach = examinedEnd - c.offset := by
  rw [ofToken_token hstop, clamp_of_le (by omega)]
  simp only [Leaf.reach]
  omega

/-- Where the bytes that were read for a token stand in another text, the lexer finds the token
there in the same mode. -/
theorem nextToken_congr (ha : a.size ≤ maxSize) (hb : b.size ≤ maxSize) (hmode : d.mode = c.mode)
    (h : lexer.nextToken a c = some t)
    (hagree : Agree a b c.offset d.offset (Leaf.ofToken t).reach) :
    ∃ u, lexer.nextToken b d = some u ∧ Leaf.ofToken u = .ofToken t ∧ u.nextMode = t.nextMode := by
  have hcovers := covers_of_nextToken ha h
  have hc : c.offset < a.size := lt_size_of_nextToken h
  have hbyte : a[c.offset]? = b[d.offset]? := by
    have hlength : 0 < t.range.length := Nat.sub_pos_of_lt (hcovers.start ▸ hcovers.forward)
    exact hagree 0 (Nat.lt_of_lt_of_le hlength (Nat.le_add_right _ _))
  have hd : d.offset < b.size := by
    rw [Array.getElem?_eq_getElem hc] at hbyte
    exact (Array.getElem?_eq_some_iff.1 hbyte.symm).1
  cases nextToken_eq_some_iff.1 h with
  | @unknownMode byte here unknown =>
    refine ⟨_, nextToken_eq_some_iff.2 (.unknownMode (hbyte ▸ here) (hmode ▸ unknown)), ?_, hmode⟩
    simp only [ofToken_atCursor, Nat.sub_self, hmode]
  | @noMatch byte mode here known unmatched =>
    have hread := mode.dfa.examined_longestMatch (Nat.le_of_lt hc)
    rw [reach_atCursor hread.1 (by omega)] at hagree
    obtain ⟨hbest, hend⟩ := Dfa.longestMatch_congr (Nat.le_of_lt hc) (Nat.le_of_lt hd) hagree
    refine ⟨_, nextToken_eq_some_iff.2
      (.noMatch (hbyte ▸ here) (hmode ▸ known) (hbest ▸ unmatched)), ?_, hmode⟩
    simp only [ofToken_atCursor, Nat.sub_add_eq, hend, hmode]
  | @rule byte mode length number rule here known best numbered =>
    have hread := mode.dfa.examined_longestMatch (Nat.le_of_lt hc)
    have hlength := Dfa.length_le_examined_longestMatch (Nat.le_of_lt hc) best
    obtain ⟨hpos, hstop⟩ := mode.dfa.within_longestMatch a c.offset _ _ best
    rw [reach_token hlength hpos (by omega) (by omega)] at hagree
    obtain ⟨hbest, hend⟩ := Dfa.longestMatch_congr (Nat.le_of_lt hc) (Nat.le_of_lt hd) hagree
    obtain ⟨-, hstop'⟩ := mode.dfa.within_longestMatch b d.offset _ _ (hbest.trans best)
    have htext := (hagree.mono (m := length) (by omega)).extract_eq hstop hstop'
    refine ⟨_, nextToken_eq_some_iff.2
      (.rule (hbyte ▸ here) (hmode ▸ known) (hbest.trans best) numbered), ?_, ?_⟩
    · rw [ofToken_token (by omega), ofToken_token (by omega)]
      simp only [Nat.sub_add_eq, hend, hmode, htext]
    · simp only [token, hmode]

/-- The token that stands for what the lexer found. -/
def asToken : Except Unrecognized Token → Token
  | .ok t => t
  | .error u => u.toToken

private theorem nextToken_eq (lexer : Lexer) (input : Bytes) (c : Cursor) :
    lexer.nextToken input c = (lexer.next input c).map asToken := rfl

/-- Only what the lexer failed to match is marked as an error. -/
theorem isOk_of_next {found : Except Unrecognized Token} (h : lexer.next a c = some found) :
    found.isOk = !(asToken found).flags.error := by
  obtain ⟨byte, -, h⟩ := Option.bind_eq_some_iff.1 h
  split at h
  · rw [← Option.some.inj h]
    rfl
  · dsimp only at h
    split at h
    · rw [← Option.some.inj h]
      rfl
    · rw [← Option.some.inj h]
      rfl

/-- What the lexer finds at a cursor, be it a token or an unrecognized byte, depends on the mode and
on the bytes of the token and of its lookahead, where the end of the text counts as one byte
more. -/
theorem next_congr (lexer : Lexer) (ha : a.size ≤ maxSize) (hb : b.size ≤ maxSize)
    (hmode : d.mode = c.mode) {found : Except Unrecognized Token} (h : lexer.next a c = some found)
    (hagree : Agree a b c.offset d.offset
      ((asToken found).range.length + (asToken found).lookahead)) :
    ∃ found', lexer.next b d = some found' ∧ found'.isOk = found.isOk ∧
      (asToken found').kind = (asToken found).kind ∧
      (asToken found').range.length = (asToken found).range.length ∧
      (asToken found').nextMode = (asToken found).nextMode ∧
      (asToken found').lookahead = (asToken found).lookahead ∧
      (asToken found').flags = (asToken found).flags := by
  have htoken : lexer.nextToken a c = some (asToken found) := by
    rw [nextToken_eq, h, Option.map_some]
  obtain ⟨u, hu, hleaf, hnext⟩ := nextToken_congr ha hb hmode htoken hagree
  rw [nextToken_eq] at hu
  obtain ⟨found', hfound, rfl⟩ := Option.map_eq_some_iff.1 hu
  simp only [Leaf.ofToken, Leaf.mk.injEq] at hleaf
  obtain ⟨hkind, -, hlength, hlookahead, -, hflags⟩ := hleaf
  refine ⟨found', hfound, ?_, hkind, hlength, hnext, hlookahead, hflags⟩
  rw [isOk_of_next hfound, isOk_of_next h, hflags]

end Lexer

/-- Reads the tokens a and abc. -/
def Lexer.greedy : Lexer where
  modes :=
    #[⟨"default",
      ⟨#[⟨#[⟨97, 97, 1⟩], none⟩, ⟨#[⟨98, 98, 2⟩], some 0⟩, ⟨#[⟨99, 99, 3⟩], none⟩, ⟨#[], some 1⟩]⟩⟩]
  rules := #[⟨⟨2⟩, 0, none⟩, ⟨⟨3⟩, 0, none⟩]
  word := none

namespace Lexer

/-- The text ab ends before it is clear that its first token is a. -/
theorem next_congr_greedy :
    let found : Except Unrecognized Token := .ok ⟨⟨2⟩, ⟨0, 1⟩, ⟨0, 0⟩, ⟨0, 1⟩, 0, 0, 2, {}⟩
    greedy.next #[97, 98] .start = some found ∧
    Agree #[97, 98] #[97, 98, 99, 97, 98] 0 3
      ((asToken found).range.length + (asToken found).lookahead) ∧
    ∃ found', greedy.next #[97, 98, 99, 97, 98] ⟨3, ⟨0, 3⟩, 0⟩ = some found' ∧
      found'.isOk = found.isOk ∧
      (asToken found').kind = (asToken found).kind ∧
      (asToken found').range.length = (asToken found).range.length ∧
      (asToken found').nextMode = (asToken found).nextMode ∧
      (asToken found').lookahead = (asToken found).lookahead ∧
      (asToken found').flags = (asToken found).flags := by
  intro found
  have hnext : greedy.next #[97, 98] .start = some found := by cbv
  have hagree : Agree #[97, 98] #[97, 98, 99, 97, 98] 0 3 3 := by decide
  have hmode : (⟨3, ⟨0, 3⟩, 0⟩ : Cursor).mode = Cursor.start.mode := rfl
  exact ⟨hnext, hagree, next_congr greedy (by decide) (by decide) hmode hnext hagree⟩

end Lexer
end Reparse
