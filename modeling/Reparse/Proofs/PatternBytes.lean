import Reparse.Proofs.Patterns

/-! # Bytes of the texts of patterns

Which bytes the texts of a pattern can begin with, and which of them never occur, is computed from
the pattern. -/
namespace Reparse.Lexer.Pattern

/-! ## First bytes -/

mutual
/-- Whether a text of the pattern may begin with a byte. -/
def opens (b : UInt8) : Pattern → Bool
  | .literal text => (Text.ofString text).toList.head?.any (b == ·)
  | .oneOf set => set.ranges.any fun r => r.1 ≤ b && b ≤ r.2
  | .seq items => opensSeq b items
  | .alt items => opensAlt b items
  | .repeated item _ _ => opens b item

def opensSeq (b : UInt8) : List Pattern → Bool
  | [] => false
  | p :: rest => opens b p || p.matchesEmpty && opensSeq b rest

def opensAlt (b : UInt8) : List Pattern → Bool
  | [] => false
  | p :: rest => opens b p || opensAlt b rest
end

private theorem ofString_eq_nil {text : String} (h : (Text.ofString text).toList = []) :
    text = "" :=
  String.toByteArray_inj.1 (ByteArray.ext (Array.toList_inj.1 h))

mutual
theorem matchesEmpty_of_mem : (p : Pattern) → [] ∈ p.language → p.matchesEmpty = true
  | .literal text, h => by
    have htext : [] = (Text.ofString text).toList := h
    rw [ofString_eq_nil htext.symm]
    rfl
  | .oneOf set, h => by
    obtain ⟨r, -, b, -, -, hb⟩ := h
    contradiction
  | .seq items, h => matchesEmpty_of_memSeq items h
  | .alt items, h => matchesEmpty_of_memAlt items h
  | .repeated item min max, h => by
    obtain ⟨n, hmin, -, hn⟩ := mem_copies.1 h
    rw [matchesEmpty, Bool.or_eq_true]
    cases n with
    | zero => exact .inl (by simpa using hmin)
    | succ n =>
      rw [pow_succ', Language.mem_mul] at hn
      obtain ⟨u, hu, v, -, huv⟩ := hn
      obtain ⟨rfl, -⟩ := List.append_eq_nil_iff.1 huv
      exact .inr (matchesEmpty_of_mem item hu)

private theorem matchesEmpty_of_memSeq :
    (items : List Pattern) → [] ∈ languageOfSeq items → allMatchEmpty items = true
  | [], _ => rfl
  | p :: rest, h => by
    rw [languageOfSeq, Language.mem_mul] at h
    obtain ⟨u, hu, v, hv, huv⟩ := h
    obtain ⟨rfl, rfl⟩ := List.append_eq_nil_iff.1 huv
    rw [allMatchEmpty, matchesEmpty_of_mem p hu, matchesEmpty_of_memSeq rest hv]
    rfl

private theorem matchesEmpty_of_memAlt :
    (items : List Pattern) → [] ∈ languageOfAlt items → anyMatchesEmpty items = true
  | [], h => absurd h (Language.notMem_zero [])
  | p :: rest, h => by
    rw [languageOfAlt, Language.mem_add] at h
    rw [anyMatchesEmpty, Bool.or_eq_true]
    exact h.imp (matchesEmpty_of_mem p) (matchesEmpty_of_memAlt rest)
end

/-- A text that is read piece by piece begins in the first piece that is not empty. -/
theorem cons_eq_append {b : UInt8} {w u v : List UInt8} (h : b :: w = u ++ v) :
    (∃ u', u = b :: u') ∨ u = [] ∧ v = b :: w := by
  cases u with
  | nil => exact .inr ⟨rfl, h.symm⟩
  | cons c u => exact .inl ⟨u, by rw [(List.cons.inj h).1]⟩

mutual
/-- Texts begin with bytes that open the pattern. -/
theorem opens_of_mem {b : UInt8} :
    (p : Pattern) → (w : List UInt8) → b :: w ∈ p.language → p.opens b = true
  | .literal text, w, h => by
    have htext : b :: w = (Text.ofString text).toList := h
    rw [opens, ← htext, List.head?_cons, Option.any_some, beq_self_eq_true]
  | .oneOf set, w, h => by
    obtain ⟨r, hr, c, hlo, hhi, hc⟩ := h
    obtain rfl := (List.cons.inj hc).1
    rw [opens, List.any_eq_true]
    exact ⟨r, hr, by simp [hlo, hhi]⟩
  | .seq items, w, h => opens_of_memSeq items w h
  | .alt items, w, h => opens_of_memAlt items w h
  | .repeated item min max, w, h => by
    obtain ⟨n, -, -, hn⟩ := mem_copies.1 h
    induction n with
    | zero => simp at hn
    | succ n ih =>
      rw [pow_succ', Language.mem_mul] at hn
      obtain ⟨u, hu, v, hv, huv⟩ := hn
      rcases cons_eq_append huv.symm with ⟨u', rfl⟩ | ⟨-, rfl⟩
      · exact opens_of_mem item u' hu
      · exact ih hv

private theorem opens_of_memSeq {b : UInt8} :
    (items : List Pattern) → (w : List UInt8) → b :: w ∈ languageOfSeq items →
    opensSeq b items = true
  | [], w, h => by simp [languageOfSeq] at h
  | p :: rest, w, h => by
    rw [languageOfSeq, Language.mem_mul] at h
    obtain ⟨u, hu, v, hv, huv⟩ := h
    rw [opensSeq, Bool.or_eq_true, Bool.and_eq_true]
    rcases cons_eq_append huv.symm with ⟨u', rfl⟩ | ⟨rfl, rfl⟩
    · exact .inl (opens_of_mem p u' hu)
    · exact .inr ⟨matchesEmpty_of_mem p hu, opens_of_memSeq rest w hv⟩

private theorem opens_of_memAlt {b : UInt8} :
    (items : List Pattern) → (w : List UInt8) → b :: w ∈ languageOfAlt items →
    opensAlt b items = true
  | [], w, h => absurd h (Language.notMem_zero _)
  | p :: rest, w, h => by
    rw [languageOfAlt, Language.mem_add] at h
    rw [opensAlt, Bool.or_eq_true]
    exact h.imp (opens_of_mem p w) (opens_of_memAlt rest w)
end

/-! ## Bytes that do not occur -/

mutual
/-- Whether the byte is in no text of the pattern. -/
def lacks (b : UInt8) : Pattern → Bool
  | .literal text => !(Text.ofString text).toList.contains b
  | .oneOf set => !set.ranges.any fun r => r.1 ≤ b && b ≤ r.2
  | .seq items => allLack b items
  | .alt items => allLack b items
  | .repeated item _ _ => lacks b item

def allLack (b : UInt8) : List Pattern → Bool
  | [] => true
  | p :: rest => lacks b p && allLack b rest
end

mutual
theorem not_mem_of_lacks {b : UInt8} : (p : Pattern) → p.lacks b = true → ∀ w ∈ p.language, b ∉ w
  | .literal text, hlacks, w, hw => by
    have htext : w = (Text.ofString text).toList := hw
    rw [lacks, Bool.not_eq_true', List.contains_eq_mem, decide_eq_false_iff_not] at hlacks
    rwa [htext]
  | .oneOf set, hlacks, w, hw => by
    obtain ⟨r, hr, c, hlo, hhi, rfl⟩ := hw
    rw [List.mem_singleton]
    rintro rfl
    simp only [lacks, Bool.not_eq_true', List.any_eq_false] at hlacks
    exact hlacks r hr (by simp [hlo, hhi])
  | .seq items, hlacks, w, hw => not_mem_of_allLackSeq items hlacks w hw
  | .alt items, hlacks, w, hw => not_mem_of_allLackAlt items hlacks w hw
  | .repeated item min max, hlacks, w, hw => by
    obtain ⟨n, -, -, hn⟩ := mem_copies.1 hw
    clear hw
    induction n generalizing w with
    | zero =>
      rw [pow_zero, Language.mem_one] at hn
      rw [hn]
      exact List.not_mem_nil
    | succ n ih =>
      rw [pow_succ', Language.mem_mul] at hn
      obtain ⟨u, hu, v, hv, rfl⟩ := hn
      exact mt List.mem_append.1 (not_or.2 ⟨not_mem_of_lacks item hlacks u hu, ih v hv⟩)

private theorem not_mem_of_allLackSeq {b : UInt8} :
    (items : List Pattern) → allLack b items = true →
    ∀ w ∈ languageOfSeq items, b ∉ w
  | [], _, w, hw => by
    rw [languageOfSeq, Language.mem_one] at hw
    rw [hw]
    exact List.not_mem_nil
  | p :: rest, hlacks, w, hw => by
    rw [languageOfSeq, Language.mem_mul] at hw
    obtain ⟨u, hu, v, hv, rfl⟩ := hw
    rw [allLack, Bool.and_eq_true] at hlacks
    exact mt List.mem_append.1
      (not_or.2 ⟨not_mem_of_lacks p hlacks.1 u hu, not_mem_of_allLackSeq rest hlacks.2 v hv⟩)

private theorem not_mem_of_allLackAlt {b : UInt8} :
    (items : List Pattern) → allLack b items = true →
    ∀ w ∈ languageOfAlt items, b ∉ w
  | [], _, w, hw => absurd hw (Language.notMem_zero w)
  | p :: rest, hlacks, w, hw => by
    rw [languageOfAlt, Language.mem_add] at hw
    rw [allLack, Bool.and_eq_true] at hlacks
    exact hw.elim (not_mem_of_lacks p hlacks.1 w) (not_mem_of_allLackAlt rest hlacks.2 w)
end

end Reparse.Lexer.Pattern
