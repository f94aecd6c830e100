import Mathlib.Data.List.TakeDrop
import Reparse.Proofs.Escapes

/-! # Compact documents can be read back -/
namespace Reparse.Json

/-- Values with integers for numbers and with proper escapes. -/
inductive Plain : Value → Prop
  | null : Plain .null
  | bool (b : Bool) : Plain (.bool b)
  | integer (n : Int) : Plain (ofInt n)
  | string (s : String) : Plain (.string (escape s))
  | array {items : List Value} (values : ∀ v ∈ items, Plain v) : Plain (.array items)
  | object {members : List (List UInt8 × Value)} (keys : ∀ m ∈ members, ∃ s, m.1 = escape s)
      (values : ∀ m ∈ members, Plain m.2) : Plain (.object members)

/-- What may stand behind a value: the end, or the end of a part of a container. -/
def Ends (rest : List UInt8) : Prop :=
  ∀ b tail, rest = b :: tail → b = comma ∨ b = closeBracket ∨ b = closeBrace

private theorem ends_nil : Ends [] := nofun

private theorem ends_cons {b : UInt8} (h : b = comma ∨ b = closeBracket ∨ b = closeBrace)
    (tail : List UInt8) :
    Ends (b :: tail) := by
  rintro c tail' heq
  rw [← (List.cons.inj heq).1]
  exact h

theorem skipBlanks_cons {b : UInt8} (h : isBlank b = false) (tail : List UInt8) :
    skipBlanks (b :: tail) = b :: tail := by
  simp [skipBlanks, h]

/-! ## Scalars -/

private theorem all_hexDigits (b : UInt8) :
    (controlEscape b).all (fun x => (hexValue? x).isSome) = true := by
  have hall : ∀ n < 16, (hexValue? (hexDigitByte n)).isSome = true := by decide
  have hhigh := hall (b.toNat / 16) (Nat.div_lt_of_lt_mul b.toNat_lt)
  have hlow := hall (b.toNat % 16) (Nat.mod_lt _ (by decide))
  simp only [controlEscape, List.all_cons, hhigh, hlow]
  rfl

private theorem scanString_escapeByte (done rest : List UInt8) (b : UInt8) :
    scanString done (escapeByte b ++ rest) = scanString ((escapeByte b).reverse ++ done) rest := by
  rcases escapeByte_cases b with
      ⟨letter, hlookup, hescape⟩ | ⟨-, hescape⟩ | ⟨hcontrol, hlookup, hescape⟩
  · obtain ⟨hletter, hback⟩ := unescapeLetter?_of_lookup hlookup
    have hscan := scanString.eq_4 done letter rest fun _ _ _ _ _ hu _ => hletter hu
    rw [hescape]
    simpa [hback] using hscan
  · have hscan :=
      scanString.eq_3 done 48 48 (hexDigitByte (b.toNat / 16)) (hexDigitByte (b.toNat % 16)) rest
    rw [hescape]
    exact hscan.trans (if_pos (all_hexDigits b))
  · have hquote : b ≠ 34 := by
      rintro rfl
      contradiction
    have hbackslash : b ≠ 92 := ne_backslash_of_lookup hlookup
    have hscan := scanString.eq_6 done b rest hquote (fun _ _ _ _ _ hb _ => hbackslash hb)
      (fun _ _ hb _ => hbackslash hb) fun hb _ => hbackslash hb
    rw [if_neg hcontrol] at hscan
    rw [hescape]
    exact hscan

private theorem scanString_flatMap (bytes done rest : List UInt8) :
    scanString done (bytes.flatMap escapeByte ++ quoteByte :: rest) =
      some (done.reverse ++ bytes.flatMap escapeByte, rest) := by
  induction bytes generalizing done with
  | nil => simp [quoteByte, scanString]
  | cons b more ih =>
    rw [List.flatMap_cons, List.append_assoc, scanString_escapeByte, ih]
    simp

private theorem scanString_escape (s : String) (rest : List UInt8) :
    scanString [] (escape s ++ quoteByte :: rest) = some (escape s, rest) :=
  scanString_flatMap _ [] rest

theorem Ends.head {b : UInt8} {tail : List UInt8} (h : Ends (b :: tail)) :
    isDigit b = false ∧ b ≠ 46 ∧ b ≠ 101 ∧ b ≠ 69 := by
  rcases h b tail rfl with rfl | rfl | rfl <;> decide

private theorem scanDigits_decimal (n : Nat) {rest : List UInt8} (h : Ends rest) :
    scanDigits (decimal n ++ rest) = some (decimal n, rest) := by
  have hspan : (decimal n ++ rest).span isDigit = (decimal n, rest) := by
    rw [List.span_eq_takeWhile_dropWhile, List.takeWhile_append_of_pos (isDigit_decimal n),
      List.dropWhile_append_of_pos (isDigit_decimal n)]
    cases rest with
    | nil => simp
    | cons b tail => simp [h.head.1]
  unfold scanDigits
  rw [hspan]
  split
  · next heq => exact absurd (Prod.mk.inj heq).1 (decimal_ne_nil n)
  · next heq => rw [(Prod.mk.inj heq).1, (Prod.mk.inj heq).2]

private theorem scanWhole_decimal (n : Nat) {rest : List UInt8} (h : Ends rest) :
    scanWhole (decimal n ++ rest) = some (decimal n, rest) := by
  unfold scanWhole
  rw [scanDigits_decimal n h]
  split
  · next b more rest' heq =>
    obtain ⟨c, tail, hdecimal, -, hzero⟩ := decimal_cases n
    simp only [Option.some.injEq, Prod.mk.injEq, hdecimal, List.cons.injEq] at heq
    obtain ⟨⟨rfl, rfl⟩, -⟩ := heq
    exact absurd (hzero rfl).2 (List.cons_ne_nil _ _)
  · rfl

private theorem scanFraction_ends {rest : List UInt8} (h : Ends rest) :
    scanFraction rest = some ([], rest) := by
  unfold scanFraction
  split
  · exact absurd rfl h.head.2.1
  · rfl

private theorem scanExponent_ends {rest : List UInt8} (h : Ends rest) :
    scanExponent rest = some ([], rest) := by
  unfold scanExponent
  split
  · obtain ⟨-, -, hlower, hupper⟩ := h.head
    rw [if_neg (by simp [hlower, hupper])]
  · rfl

/-- The digits of an integer with its sign. -/
private theorem ofInt_cases (n : Int) :
    ∃ sign m, (sign = [] ∨ sign = [45]) ∧ ofInt n = .number (sign ++ decimal m) := by
  unfold ofInt
  split
  · exact ⟨[45], n.natAbs, .inr rfl, rfl⟩
  · exact ⟨[], n.natAbs, .inl rfl, rfl⟩

private theorem scanNumber_integer {sign : List UInt8} (hsign : sign = [] ∨ sign = [45]) (n : Nat)
    {rest : List UInt8} (h : Ends rest) :
    scanNumber (sign ++ decimal n ++ rest) = some (.number (sign ++ decimal n), rest) := by
  obtain ⟨b, tail, hdecimal, hdigit, -⟩ := decimal_cases n
  have hminus : b ≠ 45 := ne_of_isDigit hdigit rfl
  have hwhole := scanWhole_decimal n h
  rcases hsign with rfl | rfl
  · simp only [scanNumber, List.nil_append]
    split
    · next heq =>
      rw [hdecimal] at heq
      exact absurd (List.cons.inj heq).1 hminus
    · simp [hwhole, scanFraction_ends h, scanExponent_ends h]
  · simp [scanNumber, hwhole, scanFraction_ends h, scanExponent_ends h]

/-! ## Steps -/

theorem scanFrom_of_step {stack stack' : List Frame} {e e' : Expecting} {input rest : List UInt8}
    (h : scanStep stack e input = some (stack', e', rest)) (fuel : Nat) :
    scanFrom (fuel + 1) stack e input = scanFrom fuel stack' e' rest := by
  rw [scanFrom, h]
  rintro v rfl rfl hnil
  simp [scanStep, hnil] at h

/-- A value in front of what may follow is read in steps, none of which is without a byte. -/
def Reads (v : Value) : Prop :=
  ∀ rest, Ends rest → ∃ n, n + rest.length ≤ (v.compactOnto rest).length ∧
  ∀ fuel stack, scanFrom (fuel + n) stack .value (v.compactOnto rest) =
    scanFrom fuel stack (.after v) rest

/-- The first byte of a value tells it from blanks and from the end of a container. -/
def Starts (input : List UInt8) : Prop :=
  ∃ b tail, input = b :: tail ∧ isBlank b = false ∧ b ≠ closeBracket ∧ b ≠ closeBrace

theorem Starts.append {input : List UInt8} (h : Starts input) (rest : List UInt8) :
    Starts (input ++ rest) := by
  obtain ⟨b, tail, rfl, hb⟩ := h
  exact ⟨b, tail ++ rest, rfl, hb⟩

private theorem Starts.skipBlanks {input : List UInt8} (h : Starts input) :
    skipBlanks input = input := by
  obtain ⟨b, tail, rfl, hblank, -⟩ := h
  exact skipBlanks_cons hblank tail

private theorem starts_cons {b : UInt8} (h : isBlank b = false ∧ b ≠ closeBracket ∧ b ≠ closeBrace)
    (tail : List UInt8) :
    Starts (b :: tail) := ⟨b, tail, rfl, h⟩

/-- A byte with which no other value starts. -/
def StartsNumber (b : UInt8) : Prop := isBlank b = false ∧ b ∉ [34, 91, 93, 102, 110, 116, 123, 125]

private theorem starts_integer (n : Int) :
    ∃ b tail, ofInt n = .number (b :: tail) ∧ StartsNumber b ∧
    ∀ rest, Ends rest → scanNumber (b :: tail ++ rest) = some (.number (b :: tail), rest) := by
  obtain ⟨sign, m, hsign, hn⟩ := ofInt_cases n
  obtain ⟨b, tail, hdecimal, hdigit, -⟩ := decimal_cases m
  have hscan (rest : List UInt8) (hrest : Ends rest) := scanNumber_integer hsign m hrest
  rw [hdecimal] at hn hscan
  rcases hsign with rfl | rfl
  · refine ⟨b, tail, hn, ⟨?_, ?_⟩, hscan⟩
    · have hne {c : UInt8} (hc : isDigit c = false) : b ≠ c := ne_of_isDigit hdigit hc
      simp [isBlank, hne (c := 32) rfl, hne (c := 9) rfl, hne (c := 10) rfl, hne (c := 13) rfl]
    · intro hmem
      have hall : ∀ c ∈ ([34, 91, 93, 102, 110, 116, 123, 125] : List UInt8),
          isDigit c = false := by
        simp [isDigit]
      exact ne_of_isDigit hdigit (hall b hmem) rfl
  · exact ⟨45, b :: tail, hn, ⟨by decide, by decide⟩, hscan⟩

private theorem Plain.starts {v : Value} (h : Plain v) (rest : List UInt8) :
    Starts (v.compactOnto rest) := by
  cases h with
  | null => exact starts_cons (by decide) _
  | bool b => cases b <;> exact starts_cons (by decide) _
  | integer n =>
    obtain ⟨b, tail, hn, ⟨hblank, hother⟩, -⟩ := starts_integer n
    rw [hn]
    simp only [List.mem_cons, not_or] at hother
    exact starts_cons ⟨hblank, hother.2.2.1, hother.2.2.2.2.2.2.2.1⟩ _
  | string s => exact starts_cons (by decide) _
  | array values => exact starts_cons (by decide) _
  | object keys values => exact starts_cons (by decide) _

private theorem scanStep_scalar {b : UInt8} {tail rest : List UInt8} {v : Value}
    (hblank : isBlank b = false) (harray : b ≠ 91) (hobject : b ≠ 123)
    (hscan : scanScalar (b :: tail) = some (v, rest)) (stack : List Frame) :
    scanStep stack .value (b :: tail) = some (stack, .after v, rest) := by
  have hskip := skipBlanks_cons hblank tail
  rw [scanStep.eq_3, hskip, hscan]
  · rfl
  · intro rest' heq
    rw [hskip] at heq
    exact harray (List.cons.inj heq).1
  · intro rest' heq
    rw [hskip] at heq
    exact hobject (List.cons.inj heq).1

/-- Scalars are read in one step. -/
theorem reads_of_scalar {v : Value}
    (h : ∀ rest, Ends rest → ∃ b tail, v.compactOnto rest = b :: tail ∧ isBlank b = false ∧ b ≠ 91 ∧
      b ≠ 123 ∧ scanScalar (b :: tail) = some (v, rest) ∧ rest <:+ tail) : Reads v := by
  intro rest hrest
  obtain ⟨b, tail, htext, hblank, harray, hobject, hscan, hsuffix⟩ := h rest hrest
  have hlength := hsuffix.length_le
  refine ⟨1, by rw [htext, List.length_cons]; omega, fun fuel stack => ?_⟩
  rw [htext]
  exact scanFrom_of_step (scanStep_scalar hblank harray hobject hscan stack) fuel

theorem scanWord_ascii (word : String) (v : Value) (rest : List UInt8) :
    scanWord word v (ascii word ++ rest) = some (v, rest) := by
  have hlength : word.length = (ascii word).length := by
    rw [ascii, List.length_map, String.length_toList]
  rw [scanWord, if_pos (List.isPrefixOf_iff_prefix.2 (List.prefix_append _ _)),
    hlength, List.drop_left]

theorem scanWord_of_ne {word : String} {first b : UInt8} {more : List UInt8}
    (hword : ascii word = first :: more) (hne : b ≠ first) (v : Value) (tail : List UInt8) :
    scanWord word v (b :: tail) = none := by
  have hprefix : (ascii word).isPrefixOf (b :: tail) = false := by
    rw [hword, List.isPrefixOf]
    simp [hne.symm]
  rw [scanWord, hprefix]
  rfl

/-- Only quotes start strings. -/
theorem scanScalar_of_ne {b : UInt8} (h : b ≠ 34) (tail : List UInt8) : scanScalar (b :: tail) =
    (scanWord "null" .null (b :: tail) <|> scanWord "true" (.bool true) (b :: tail) <|>
      scanWord "false" (.bool false) (b :: tail) <|> scanNumber (b :: tail)) := by
  rw [scanScalar.eq_2]
  intro rest heq
  exact h (List.cons.inj heq).1

theorem ascii_null : ascii "null" = [110, 117, 108, 108] := by decide
theorem ascii_true : ascii "true" = [116, 114, 117, 101] := by decide
private theorem ascii_false : ascii "false" = [102, 97, 108, 115, 101] := by decide

private theorem reads_null : Reads .null := by
  have hword (rest : List UInt8) := scanWord_ascii "null" .null rest
  simp only [ascii_null] at hword
  refine reads_of_scalar fun rest _ =>
    ⟨110, [117, 108, 108] ++ rest, ?_, by decide, by decide, by decide, ?_, List.suffix_append _ _⟩
  · rw [Value.compactOnto, ascii_null]
    rfl
  · rw [scanScalar_of_ne (by decide)]
    exact congrArg (· <|> _) (hword rest)

private theorem reads_true : Reads (.bool true) := by
  have hword (rest : List UInt8) := scanWord_ascii "true" (.bool true) rest
  simp only [ascii_true] at hword
  refine reads_of_scalar fun rest _ =>
    ⟨116, [114, 117, 101] ++ rest, ?_, by decide, by decide, by decide, ?_, List.suffix_append _ _⟩
  · rw [Value.compactOnto, if_pos rfl, ascii_true]
    rfl
  · rw [scanScalar_of_ne (by decide), scanWord_of_ne ascii_null (by decide)]
    change (none <|> scanWord "true" (.bool true) ([116, 114, 117, 101] ++ rest) <|> _) = _
    rw [hword rest]
    rfl

private theorem reads_false : Reads (.bool false) := by
  have hword (rest : List UInt8) := scanWord_ascii "false" (.bool false) rest
  simp only [ascii_false] at hword
  refine reads_of_scalar fun rest _ =>
    ⟨102, [97, 108, 115, 101] ++ rest, ?_, by decide, by decide, by decide, ?_,
      List.suffix_append _ _⟩
  · rw [Value.compactOnto, if_neg (by decide), ascii_false]
    rfl
  · rw [scanScalar_of_ne (by decide), scanWord_of_ne ascii_null (by decide),
      scanWord_of_ne ascii_true (by decide)]
    change (none <|> none <|>
        scanWord "false" (.bool false) ([102, 97, 108, 115, 101] ++ rest) <|> _) = _
    rw [hword rest]
    rfl

private theorem reads_string (s : String) : Reads (.string (escape s)) := by
  refine reads_of_scalar fun rest _ =>
    ⟨34, escape s ++ [quoteByte] ++ rest, rfl, by decide, by decide, by decide, ?_,
      List.suffix_append _ _⟩
  simp [scanScalar, scanString_escape]

private theorem reads_integer (n : Int) : Reads (ofInt n) := by
  obtain ⟨b, tail, hn, ⟨hblank, hother⟩, hscan⟩ := starts_integer n
  simp only [List.mem_cons, List.not_mem_nil, or_false, not_or] at hother
  obtain ⟨hquote, hbracket, -, hfalse, hnull, htrue, hbrace, -⟩ := hother
  rw [hn]
  refine reads_of_scalar fun rest hrest =>
    ⟨b, tail ++ rest, rfl, hblank, hbracket, hbrace, ?_, List.suffix_append _ _⟩
  rw [scanScalar_of_ne hquote, scanWord_of_ne ascii_null hnull, scanWord_of_ne ascii_true htrue,
    scanWord_of_ne ascii_false hfalse]
  exact hscan rest hrest

/-! ## Containers -/

private theorem reads_items {v : Value} {more : List Value} (hreads : ∀ w ∈ v :: more, Reads w)
    (done : List Value) (rest : List UInt8) :
    ∃ n, n + rest.length ≤ (Value.compactItems (v :: more) (closeBracket :: rest)).length ∧
      ∀ fuel stack, scanFrom (fuel + n) (.items done :: stack) .value
        (Value.compactItems (v :: more) (closeBracket :: rest)) =
          scanFrom fuel stack (.after (.array (done.reverse ++ v :: more))) rest := by
  induction more generalizing v done with
  | nil =>
    obtain ⟨n, hlength, hscan⟩ :=
      hreads v List.mem_cons_self (closeBracket :: rest) (ends_cons (by simp) rest)
    refine ⟨1 + n, ?_, fun fuel stack => ?_⟩
    · rw [Value.compactItems]
      rw [List.length_cons] at hlength
      omega
    · have hclose :=
        scanStep.eq_5 (closeBracket :: rest) v rest done stack (skipBlanks_cons (by decide) rest)
      rw [Value.compactItems, ← Nat.add_assoc, hscan, scanFrom_of_step hclose, List.reverse_cons]
  | cons w more ih =>
    obtain ⟨m, hmore, hitems⟩ := ih (fun u hu => hreads u (List.mem_cons_of_mem _ hu)) (v :: done)
    obtain ⟨n, hlength, hscan⟩ := hreads v List.mem_cons_self
      (comma :: Value.compactItems (w :: more) (closeBracket :: rest)) (ends_cons (by simp) _)
    refine ⟨m + 1 + n, ?_, fun fuel stack => ?_⟩
    · rw [Value.compactItems]
      rw [List.length_cons] at hlength
      omega
    · have hnext := scanStep.eq_4 (comma :: Value.compactItems (w :: more) (closeBracket :: rest)) v
        (Value.compactItems (w :: more) (closeBracket :: rest)) done stack
        (skipBlanks_cons (by decide) _)
      rw [Value.compactItems, ← Nat.add_assoc, ← Nat.add_assoc, hscan,
        scanFrom_of_step hnext, hitems]
      simp

private theorem scanStep_openBracket {text : List UInt8} (h : Starts text) (stack : List Frame) :
    scanStep stack .value (openBracket :: text) = some (.items [] :: stack, .value, text) := by
  rw [scanStep.eq_1 (openBracket :: text) stack text (skipBlanks_cons (by decide) text),
    h.skipBlanks]
  obtain ⟨b, tail, rfl, -, hbracket, -⟩ := h
  split
  · next heq => exact absurd (List.cons.inj heq).1 hbracket
  · rfl

private theorem scanStep_openBrace {text rest key : List UInt8} (h : Starts text)
    (hkey : scanKey text = some (key, rest)) (stack : List Frame) :
    scanStep stack .value (openBrace :: text) = some (.members [] key :: stack, .value, rest) := by
  rw [scanStep.eq_2 (openBrace :: text) stack text (skipBlanks_cons (by decide) text), h.skipBlanks]
  obtain ⟨b, tail, rfl, -, -, hbrace⟩ := h
  split
  · next heq => exact absurd (List.cons.inj heq).1 hbrace
  · rw [hkey]
    rfl

private theorem reads_array {items : List Value} (hplain : ∀ v ∈ items, Plain v)
    (hreads : ∀ v ∈ items, Reads v) :
    Reads (.array items) := by
  intro rest _
  cases items with
  | nil =>
    have hopen (stack : List Frame) : scanStep stack .value (openBracket :: closeBracket :: rest) =
        some (stack, .after (.array []), rest) := by
      rw [scanStep.eq_1 _ stack
        (closeBracket :: rest) (skipBlanks_cons (b := openBracket) (by decide) _),
        skipBlanks_cons (by decide)]
      rfl
    refine ⟨1, by simp [Value.compactOnto, Value.compactItems]; omega, fun fuel stack => ?_⟩
    exact scanFrom_of_step (hopen stack) fuel
  | cons v more =>
    obtain ⟨n, hlength, hitems⟩ := reads_items hreads [] rest
    have hstarts : Starts (Value.compactItems (v :: more) (closeBracket :: rest)) := by
      cases more with
      | nil => exact (hplain v List.mem_cons_self).starts _
      | cons w more => exact (hplain v List.mem_cons_self).starts _
    refine ⟨n + 1, ?_, fun fuel stack => ?_⟩
    · rw [Value.compactOnto, List.length_cons]
      omega
    · rw [Value.compactOnto, ← Nat.add_assoc,
        scanFrom_of_step (scanStep_openBracket hstarts stack), hitems]
      rfl

private theorem scanKey_quoted (s : String) (rest : List UInt8) :
    scanKey (quoted (escape s) ++ colon :: rest) = some (escape s, rest) := by
  have hquote : skipBlanks (quoted (escape s) ++ colon :: rest) =
      34 :: (escape s ++ quoteByte :: colon :: rest) := by
    simp [quoted, skipBlanks, isBlank, quoteByte]
  unfold scanKey
  rw [hquote]
  simp [scanString_escape, skipBlanks, isBlank, colon]

private theorem reads_members {v : Value} {more : List (List UInt8 × Value)}
    (hkeys : ∀ m ∈ more, ∃ s, m.1 = escape s) (hv : Reads v) (hmore : ∀ m ∈ more, Reads m.2)
    (done : List (List UInt8 × Value)) (s : String) (rest : List UInt8) :
    ∃ input, scanKey (Value.compactMembers ((escape s, v) :: more) (closeBrace :: rest)) =
      some (escape s, input) ∧
      input.length ≤ (Value.compactMembers ((escape s, v) :: more) (closeBrace :: rest)).length ∧
      ∃ n, n + rest.length ≤ input.length ∧
        ∀ fuel stack, scanFrom (fuel + n) (.members done (escape s) :: stack) .value input =
          scanFrom fuel stack (.after (.object (done.reverse ++ (escape s, v) :: more))) rest := by
  induction more generalizing s v done with
  | nil =>
    obtain ⟨n, hlength, hscan⟩ := hv (closeBrace :: rest) (ends_cons (by simp) rest)
    refine ⟨v.compactOnto (closeBrace :: rest), ?_, ?_, 1 + n, ?_, fun fuel stack => ?_⟩
    · rw [Value.compactMembers, scanKey_quoted]
    · rw [Value.compactMembers, List.length_append, List.length_cons]
      omega
    · rw [List.length_cons] at hlength
      omega
    · have hclose := scanStep.eq_7 (closeBrace :: rest) v rest done (escape s) stack
        (skipBlanks_cons (by decide) rest)
      rw [← Nat.add_assoc, hscan, scanFrom_of_step hclose, List.reverse_cons]
  | cons m more ih =>
    obtain ⟨next, w⟩ := m
    obtain ⟨t, ht⟩ := hkeys (next, w) List.mem_cons_self
    obtain rfl : next = escape t := ht
    have hw : Reads w := hmore (escape t, w) List.mem_cons_self
    obtain ⟨input, hnext, hshort, n', hlater, hmembers⟩ :=
      ih (fun u hu => hkeys u (List.mem_cons_of_mem _ hu)) hw
        (fun u hu => hmore u (List.mem_cons_of_mem _ hu)) ((escape s, v) :: done) t
    obtain ⟨n, hlength, hscan⟩ := hv
      (comma :: Value.compactMembers ((escape t, w) :: more) (closeBrace :: rest))
      (ends_cons (by simp) _)
    refine ⟨_, by rw [Value.compactMembers, scanKey_quoted], ?_, n' + 1 + n, ?_,
      fun fuel stack => ?_⟩
    · rw [Value.compactMembers, List.length_append, List.length_cons]
      omega
    · rw [List.length_cons] at hlength
      omega
    · have hcomma :=
        scanStep.eq_6 (comma :: Value.compactMembers ((escape t, w) :: more) (closeBrace :: rest)) v
        (Value.compactMembers ((escape t, w) :: more) (closeBrace :: rest)) done (escape s) stack
        (skipBlanks_cons (by decide) _)
      rw [hnext] at hcomma
      rw [← Nat.add_assoc, ← Nat.add_assoc, hscan, scanFrom_of_step hcomma, hmembers]
      simp

private theorem reads_object {members : List (List UInt8 × Value)}
    (hkeys : ∀ m ∈ members, ∃ s, m.1 = escape s) (hreads : ∀ m ∈ members, Reads m.2) :
    Reads (.object members) := by
  intro rest _
  cases members with
  | nil =>
    have hopen (stack : List Frame) : scanStep stack .value (openBrace :: closeBrace :: rest) =
        some (stack, .after (.object []), rest) := by
      rw [scanStep.eq_2 _ stack
        (closeBrace :: rest) (skipBlanks_cons (b := openBrace) (by decide) _),
        skipBlanks_cons (by decide)]
      rfl
    refine ⟨1, by simp [Value.compactOnto, Value.compactMembers]; omega, fun fuel stack => ?_⟩
    exact scanFrom_of_step (hopen stack) fuel
  | cons m more =>
    obtain ⟨key, v⟩ := m
    obtain ⟨s, hs⟩ := hkeys (key, v) List.mem_cons_self
    obtain rfl : key = escape s := hs
    have hv : Reads v := hreads (escape s, v) List.mem_cons_self
    obtain ⟨input, hkey, hshort, n, hlength, hmembers⟩ :=
      reads_members (fun m hm => hkeys m (List.mem_cons_of_mem _ hm)) hv
      (fun m hm => hreads m (List.mem_cons_of_mem _ hm)) [] s rest
    have hstarts : Starts (Value.compactMembers ((escape s, v) :: more) (closeBrace :: rest)) := by
      cases more with
      | nil => exact starts_cons (by decide) _
      | cons w more => exact starts_cons (by decide) _
    refine ⟨n + 1, ?_, fun fuel stack => ?_⟩
    · rw [Value.compactOnto, List.length_cons]
      omega
    · rw [Value.compactOnto, ← Nat.add_assoc,
        scanFrom_of_step (scanStep_openBrace hstarts hkey stack), hmembers]
      rfl

private theorem Plain.reads {v : Value} (h : Plain v) : Reads v := by
  induction h with
  | null => exact reads_null
  | bool b =>
    cases b with
    | false => exact reads_false
    | true => exact reads_true
  | integer n => exact reads_integer n
  | string s => exact reads_string s
  | array values ih => exact reads_array values ih
  | object keys values ih => exact reads_object keys ih

/-- The text of a document stands for the document. -/
theorem parse?_compact {v : Value} (h : Plain v) : parse? v.compact = some v := by
  obtain ⟨n, hlength, hscan⟩ := h.reads [] ends_nil
  have hfuel : v.compact.length + 2 = v.compact.length - n + 1 + 1 + n := by
    change n + 0 ≤ v.compact.length at hlength
    omega
  unfold parse?
  rw [hfuel]
  exact (hscan _ []).trans rfl

end Reparse.Json
