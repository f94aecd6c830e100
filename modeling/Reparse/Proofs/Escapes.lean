import Reparse.Json.Parser

/-! # Escaped strings and written integers can be read back -/
namespace Reparse.Json
open Text

/-! ## Strings -/

theorem unescapeLetter?_of_lookup {b letter : UInt8} (h : shortEscapes.lookup b = some letter) :
    letter ≠ 117 ∧ unescapeLetter? letter = some b := by
  have hall : ∀ p ∈ shortEscapes, p.2 ≠ 117 ∧ unescapeLetter? p.2 = some p.1 := by
    simp [shortEscapes, unescapeLetter?]
  obtain ⟨before, after, hsplit, -⟩ := List.lookup_eq_some_iff.1 h
  exact hall (b, letter) (by rw [hsplit]; simp)

theorem ne_backslash_of_lookup {b : UInt8} (h : shortEscapes.lookup b = none) :
    b ≠ backslashByte := by
  rintro rfl
  contradiction

/-- The escape of a control character. -/
def controlEscape (b : UInt8) : List UInt8 :=
  [48, 48, hexDigitByte (b.toNat / 16), hexDigitByte (b.toNat % 16)]

theorem escapeByte_cases (b : UInt8) :
    (∃ letter, shortEscapes.lookup b = some letter ∧ escapeByte b = [92, letter]) ∨
    (b < 32 ∧ escapeByte b = 92 :: 117 :: controlEscape b) ∨
      (¬ b < 32 ∧ shortEscapes.lookup b = none ∧ escapeByte b = [b]) := by
  unfold escapeByte
  cases hlookup : shortEscapes.lookup b with
  | some letter => exact .inl ⟨letter, rfl, rfl⟩
  | none =>
    by_cases hcontrol : b < 32
    · exact .inr (.inl ⟨hcontrol, if_pos hcontrol⟩)
    · exact .inr (.inr ⟨hcontrol, rfl, if_neg hcontrol⟩)

private theorem unicodeEscape?_control {b : UInt8} (h : b < 32) (rest : List UInt8) :
    unicodeEscape? (controlEscape b ++ rest) = some (Char.ofNat b.toNat, rest) := by
  have hdigits : ∀ n < 32, hexValue? (hexDigitByte (n / 16)) = some (n / 16) ∧
      hexValue? (hexDigitByte (n % 16)) = some (n % 16) := by decide
  have hn : b.toNat < 32 := h
  obtain ⟨hhigh, hlow⟩ := hdigits b.toNat hn
  have hhex : hex4? (controlEscape b ++ rest) = some (b.toNat, rest) := by
    have hzero : hexValue? 48 = some 0 := rfl
    have hvalue : ((0 * 16 + 0) * 16 + b.toNat / 16) * 16 + b.toNat % 16 = b.toNat := by omega
    simp only [controlEscape, List.cons_append, List.nil_append, hex4?, hzero, hhigh, hlow,
      Option.bind_eq_bind, Option.bind_some, Option.pure_def, hvalue]
  have hlowSurrogate : isLowSurrogate b.toNat = false := by
    simp only [isLowSurrogate, Bool.and_eq_false_iff, decide_eq_false_iff_not]
    omega
  have hhighSurrogate : isHighSurrogate b.toNat = false := by
    simp only [isHighSurrogate, Bool.and_eq_false_iff, decide_eq_false_iff_not]
    omega
  simp [unicodeEscape?, hhex, hlowSurrogate, hhighSurrogate]

private theorem utf8EncodeChar_control {b : UInt8} (h : b < 32) :
    String.utf8EncodeChar (Char.ofNat b.toNat) = [b] := by
  have hall : ∀ n < 32, String.utf8EncodeChar (Char.ofNat n) = [n.toUInt8] := by decide
  have hn : b.toNat < 32 := h
  rw [hall b.toNat hn]
  simp

/-- One round resolves what stands for one byte. -/
theorem unescapeFrom_escapeByte (fuel : Nat) (done rest : List UInt8) (b : UInt8) :
    unescapeFrom (fuel + 1) done (escapeByte b ++ rest) = unescapeFrom fuel (b :: done) rest := by
  rcases escapeByte_cases b with
      ⟨letter, hlookup, hescape⟩ | ⟨hcontrol, hescape⟩ | ⟨-, hlookup, hescape⟩
  · obtain ⟨hletter, hback⟩ := unescapeLetter?_of_lookup hlookup
    simp [hescape, unescapeFrom, backslashByte, hletter, hback]
  · simp [hescape, unescapeFrom, backslashByte, unicodeEscape?_control hcontrol,
      utf8EncodeChar_control hcontrol]
  · simp [hescape, unescapeFrom, ne_backslash_of_lookup hlookup]

private theorem unescapeFrom_flatMap {fuel : Nat} (bytes done : List UInt8)
    (h : bytes.length ≤ fuel) :
    unescapeFrom fuel done (bytes.flatMap escapeByte) = some (done.reverse ++ bytes) := by
  induction bytes generalizing fuel done with
  | nil => cases fuel <;> simp [unescapeFrom]
  | cons b rest ih =>
    cases fuel with
    | zero => contradiction
    | succ fuel =>
      rw [List.flatMap_cons, unescapeFrom_escapeByte, ih _ (Nat.le_of_succ_le_succ h)]
      simp

private theorem escapeByte_ne_nil (b : UInt8) : escapeByte b ≠ [] := by
  rcases escapeByte_cases b with
      ⟨letter, -, hescape⟩ | ⟨-, hescape⟩ | ⟨-, -, hescape⟩ <;> simp [hescape]

private theorem length_le_escape (bytes : List UInt8) :
    bytes.length ≤ (bytes.flatMap escapeByte).length := by
  induction bytes with
  | nil => exact Nat.le_refl 0
  | cons b rest ih =>
    have hpos := List.length_pos_iff.2 (escapeByte_ne_nil b)
    rw [List.flatMap_cons, List.length_append, List.length_cons]
    omega

theorem unescape?_escape (s : String) : unescape? (escape s) = some s := by
  have hbytes : unescapeFrom (escape s).length [] (escape s) = some (Text.ofString s).toList :=
    unescapeFrom_flatMap _ [] (length_le_escape _)
  have hdecoded : String.fromUTF8? ⟨(Text.ofString s).toList.toArray⟩ = some s := by
    have hvalid : (ByteArray.mk (Text.ofString s).toList.toArray).IsValidUTF8 := s.isValidUTF8
    unfold String.fromUTF8?
    rw [dif_pos hvalid]
    rfl
  simp only [unescape?, hbytes, Option.bind_eq_bind, Option.bind_some]
  exact hdecoded

/-! ## Integers -/

theorem isDigit_digit {d : Nat} (h : d < 10) :
    isDigit (48 + d).toUInt8 = true ∧ (48 + d).toUInt8.toNat - 48 = d := by
  have hall : ∀ d < 10, isDigit (48 + d).toUInt8 = true ∧
      (48 + d).toUInt8.toNat - 48 = d := by decide
  exact hall d h

theorem isDigit_decimal (n : Nat) : ∀ b ∈ decimal n, isDigit b = true := by
  fun_induction decimal n with
  | case1 n h => simpa using (isDigit_digit h).1
  | case2 n h ih =>
    intro b hb
    rcases List.mem_append.1 hb with hb | hb
    · exact ih b hb
    · rw [List.mem_singleton.1 hb]
      exact (isDigit_digit (Nat.mod_lt n (by decide))).1

theorem decimal_ne_nil (n : Nat) : decimal n ≠ [] := by
  unfold decimal
  split <;> simp

private theorem foldl_decimal (n : Nat) :
    (decimal n).foldl (fun n b => n * 10 + (b.toNat - 48)) 0 = n := by
  fun_induction decimal n with
  | case1 n h =>
    simp only [List.foldl_cons, List.foldl_nil, (isDigit_digit h).2, Nat.zero_mul, Nat.zero_add]
  | case2 n h ih =>
    rw [List.foldl_append, ih, List.foldl_cons, List.foldl_nil,
      (isDigit_digit (Nat.mod_lt n (by decide))).2]
    omega

private theorem digits?_decimal (n : Nat) : digits? (decimal n) = some n := by
  have hall : (decimal n).all isDigit = true := List.all_eq_true.2 (isDigit_decimal n)
  rw [digits?, if_pos hall, foldl_decimal]

/-- A number has a digit in front, and a zero only if that is all of it. -/
theorem decimal_cases (n : Nat) :
    ∃ b rest, decimal n = b :: rest ∧ isDigit b = true ∧ (b = 48 → n = 0 ∧ rest = []) := by
  fun_induction decimal n with
  | case1 n h =>
    refine ⟨_, [], rfl, (isDigit_digit h).1, fun hzero => ⟨?_, rfl⟩⟩
    have hvalue := (isDigit_digit h).2
    rw [hzero] at hvalue
    exact hvalue.symm
  | case2 n h ih =>
    obtain ⟨b, rest, hdecimal, hdigit, hzero⟩ := ih
    refine ⟨b, rest ++ [(48 + n % 10).toUInt8], by rw [hdecimal]; rfl, hdigit, fun hb => ?_⟩
    obtain ⟨hn, -⟩ := hzero hb
    omega

theorem ne_of_isDigit {b c : UInt8} (h : isDigit b = true) (hc : isDigit c = false) : b ≠ c := by
  rintro rfl
  rw [h] at hc
  contradiction

private theorem integer?_decimal (n : Nat) : integer? (.number (decimal n)) = some (n : Int) := by
  obtain ⟨b, rest, hdecimal, hdigit, -⟩ := decimal_cases n
  have hdigits := digits?_decimal n
  rw [hdecimal] at hdigits ⊢
  unfold integer?
  split
  · next heq =>
    simp only [Value.number.injEq, List.cons.injEq] at heq
    exact absurd heq.1 (ne_of_isDigit hdigit rfl)
  · next heq =>
    simp only [Value.number.injEq] at heq
    rw [← heq, hdigits]
    rfl
  · next hother => exact absurd rfl (hother (b :: rest))

theorem integer?_ofNat (n : Nat) : integer? (ofNat n) = some (n : Int) := integer?_decimal n

theorem integer?_ofInt (n : Int) : integer? (ofInt n) = some n := by
  unfold ofInt
  split
  · next hnegative =>
    have hne : n.natAbs ≠ 0 := by omega
    have hvalue : -(n.natAbs : Int) = n := by omega
    simp only [integer?, digits?_decimal, Option.bind_eq_bind, Option.bind_some, if_neg hne, hvalue]
  · next hnonnegative =>
    rw [integer?_decimal]
    exact congrArg some (by omega)

end Reparse.Json
