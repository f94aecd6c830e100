import Reparse.Proofs.Words

/-! # Macro bodies of Huff

A macro body is a list of items. Where all tokens have one blank between them, the parser makes one
child of each item, of the kind and with the text of the item. -/
namespace Reparse.Huff
open Lexer Grammar Parse

/-- The bytes of a literal. -/
abbrev bytes (text : String) : List UInt8 := (Text.ofString text).toList

/-! ## Items -/

structure Name where
  text : List UInt8
  isName : IsName text

structure Number where
  text : List UInt8
  shape : text ∈ numberPattern.language

/-- An argument of a call. -/
inductive Argument where
  | name (n : Name)
  | number (n : Number)

inductive Item where
  | opcode (mnemonic : String) (known : mnemonic ∈ opcodes)
  | number (n : Number)
  | jumpdest (n : Name)
  | label (n : Name)
  | call (n : Name) (arguments : List Argument)
  | constant (n : Name)
  | parameter (n : Name)

def Argument.text : Argument → List UInt8
  | .name n => n.text
  | .number n => n.text

/-- The tokens of an item. -/
def Item.tokens : Item → List (List UInt8)
  | .opcode mnemonic _ => [bytes mnemonic]
  | .number n => [n.text]
  | .jumpdest n => [n.text]
  | .label n => [n.text, bytes ":"]
  | .call n arguments =>
    [n.text, bytes "("] ++ (arguments.map (·.text)).intersperse (bytes ",") ++ [bytes ")"]
  | .constant n => [bytes "[", n.text, bytes "]"]
  | .parameter n => [bytes "<", n.text, bytes ">"]

def Item.text (item : Item) : List UInt8 := spaced item.tokens

def Item.kindName : Item → String
  | .opcode _ _ => "opcode"
  | .number _ => "number"
  | .jumpdest _ => "jumpdest"
  | .label _ => "jumpdest_label"
  | .call _ _ => "macro_call"
  | .constant _ => "referenced_constant"
  | .parameter _ => "referenced_parameter"

/-- The tokens of a macro in front of its body. -/
def header : List (List UInt8) :=
  ["#define", "macro", "M", "(", ")", "=", "takes", "(", "0", ")"].map bytes

/-- A macro with some items in its body. -/
def macroOver (items : List Item) : Text.Bytes :=
  (spaced (header ++ (bytes "\x7b" :: (items.flatMap (·.tokens) ++ [bytes "\x7d"])))).toArray

/-! ## Words of items -/

/-- The number of the literal for a mnemonic. -/
def mnemonicNumber (mnemonic : String) : Nat := (literalCodes grammar).idxOf (code mnemonic) + 2

/-- A mark as a word. -/
def mark (m : String × Nat) : List UInt8 × Nat := (bytes m.1, m.2)

def Argument.word : Argument → List UInt8 × Nat
  | .name n => (n.text, identifierToken)
  | .number n => (n.text, numberToken)

/-- The words of an argument behind a comma. -/
def Argument.further (a : Argument) : List (List UInt8 × Nat) := [mark (",", comma), a.word]

def argumentWords : List Argument → List (List UInt8 × Nat)
  | [] => []
  | a :: rest => a.word :: rest.flatMap (·.further)

/-- The tokens of an item with the terminals that they stand for. -/
def Item.words : Item → List (List UInt8 × Nat)
  | .opcode mnemonic _ => [(bytes mnemonic, mnemonicNumber mnemonic)]
  | .number n => [(n.text, numberToken)]
  | .jumpdest n => [(n.text, identifierToken)]
  | .label n => [(n.text, identifierToken), mark (":", colon)]
  | .call n arguments => (n.text, identifierToken) :: mark ("(", openParen) ::
      (argumentWords arguments ++ [mark (")", closeParen)])
  | .constant n => [mark ("[", openBracket), (n.text, identifierToken), mark ("]", closeBracket)]
  | .parameter n => [mark ("<", less), (n.text, identifierToken), mark (">", greater)]

/-- The words of a macro behind the first one and in front of the body. -/
def macroWords : List (List UInt8 × Nat) :=
  [mark ("macro", macroWord), (bytes "M", identifierToken), mark ("(", openParen),
  mark (")", closeParen), mark ("=", equals), mark ("takes", takesWord), mark ("(", openParen),
  (bytes "0", numberToken), mark (")", closeParen)]

def bodyWords (items : List Item) : List (List UInt8 × Nat) :=
  mark ("\x7b", leftBrace) :: (items.flatMap (·.words) ++ [mark ("\x7d", rightBrace)])

/-- The symbol of the child for an item. -/
def Item.symbol : Item → Nat
  | .opcode _ _ => Huff.opcode
  | .number _ => numberToken
  | .jumpdest _ => Huff.jumpdest
  | .label _ => jumpdestLabel
  | .call _ _ => macroCall
  | .constant _ => referencedConstant
  | .parameter _ => referencedParameter

/-- What the child for an item has of the text, and its symbol. -/
def Item.cover (item : Item) : List UInt8 × Nat := (item.text, item.symbol)

private theorem Argument.symbol_eq (a : Argument) :
    a.word.2 = identifierToken ∨ a.word.2 = numberToken := by
  cases a with
  | name n => exact .inl rfl
  | number n => exact .inr rfl

def itemSymbols : List Nat :=
  [opcode, numberToken, jumpdest, jumpdestLabel, macroCall, referencedConstant, referencedParameter]

private theorem Item.symbol_mem (item : Item) : item.symbol ∈ itemSymbols := by
  cases item <;> simp [symbol, itemSymbols]

private theorem intersperse_cons {α : Type} (sep x : α) (xs : List α) :
    (x :: xs).intersperse sep = x :: xs.flatMap ([sep, ·]) := by
  induction xs generalizing x with
  | nil => rfl
  | cons y ys ih => rw [List.intersperse_cons_cons, ih]; rfl

private theorem Argument.word_fst (a : Argument) : a.word.1 = a.text := by cases a <;> rfl

private theorem argumentWords_fst (arguments : List Argument) :
    (argumentWords arguments).map (·.1) = (arguments.map (·.text)).intersperse (bytes ",") := by
  cases arguments with
  | nil => rfl
  | cons a rest =>
    rw [argumentWords, List.map_cons, List.map_cons, intersperse_cons, a.word_fst,
      List.map_flatMap, List.flatMap_map]
    simp only [Argument.further, List.map_cons, List.map_nil, Argument.word_fst, mark]

private theorem Item.words_fst (item : Item) : item.words.map (·.1) = item.tokens := by
  cases item with
  | call n arguments =>
    rw [words, List.map_cons, List.map_cons, List.map_append, argumentWords_fst]
    rfl
  | _ => rfl

private theorem marks_plain :
    (marks.all fun m => Nat.ble 2 m.2 && (bytes m.1).head?.any plain) = true := by cbv

theorem word_mark {m : String × Nat} (hm : m ∈ marks) : Word (mark m).1 (mark m).2 := by
  have hplain := List.all_eq_true.1 marks_plain m hm
  rw [Bool.and_eq_true] at hplain
  have hword : Word (bytes m.1) (m.2 - 2 + 2) := .literal (getElem?_terminals_mark hm) hplain.2
  rwa [Nat.sub_add_cancel (Nat.le_of_ble_eq_true hplain.1)] at hword

private theorem isName_macro : IsName (bytes "M") := isName_iff.2 (by cbv)

private theorem isWord_macroWords : ∀ x ∈ macroWords, Word x.1 x.2 := by
  have hmark (m : String × Nat) (hm : m ∈ marks) : Word (mark m).1 (mark m).2 := word_mark hm
  have hname : Word (bytes "M") identifierToken := .name isName_macro
  have hzero : Word (bytes "0") numberToken := .number (mem_number_of_digit (by cbv))
  simpa [macroWords] using ⟨hmark _ (by decide), hname, hmark _ (by decide), hmark _ (by decide),
    hmark _ (by decide), hmark _ (by decide), hmark _ (by decide), hzero, hmark _ (by decide)⟩

private theorem opcodes_plain : (opcodes.all fun m => (bytes m).head?.any plain) = true := by cbv

private theorem Argument.isWord (a : Argument) : Word a.word.1 a.word.2 := by
  cases a with
  | name n => exact .name n.isName
  | number n => exact .number n.shape

private theorem Argument.isWord_further (a : Argument) : ∀ x ∈ a.further, Word x.1 x.2 := by
  have hcomma := word_mark (m := (",", comma)) (by decide)
  simpa [further] using ⟨hcomma, a.isWord⟩

private theorem isWord_argumentWords (arguments : List Argument) :
    ∀ x ∈ argumentWords arguments, Word x.1 x.2 := by
  intro x hx
  cases arguments with
  | nil => exact absurd hx List.not_mem_nil
  | cons a rest =>
    rcases List.mem_cons.1 hx with rfl | hx
    · exact a.isWord
    · obtain ⟨b, -, hx⟩ := List.mem_flatMap.1 hx
      exact b.isWord_further x hx

section
variable {k : Compilation} (hk : Compiles k (commentRows ++ macroRows))
include hk

private theorem Compiles.mnemonic {m : String} (hm : m ∈ opcodes) :
    Word (bytes m) (mnemonicNumber m) ∧ Produces k.flat (opcode, [mnemonicNumber m]) := by
  obtain ⟨n, hn, hproduces⟩ := hk.mnemonics m hm
  have hmem := List.mem_of_getElem? (getElem?_terminals_literal.1 hn)
  have hindex := getElem?_terminals_literal.2 (List.getElem?_idxOf hmem)
  obtain ⟨d, hvalid⟩ := hk.valid
  have heq := Terminal.eq_of_nodup (distinct_terminals hvalid).texts hindex hn rfl rfl
  refine ⟨.literal hindex (List.all_eq_true.1 opcodes_plain m hm), ?_⟩
  rwa [mnemonicNumber, heq]

private theorem Compiles.isWord_item (item : Item) : ∀ x ∈ item.words, Word x.1 x.2 := by
  have hmark (m : String × Nat) (hm : m ∈ marks) : Word (mark m).1 (mark m).2 := word_mark hm
  cases item with
  | opcode mnemonic known => simpa [Item.words] using (hk.mnemonic known).1
  | number n => simpa [Item.words] using Word.number n.shape
  | jumpdest n => simpa [Item.words] using Word.name n.isName
  | label n => simpa [Item.words] using ⟨Word.name n.isName, hmark _ (by decide)⟩
  | call n arguments =>
    intro x hx
    simp only [Item.words, List.mem_cons, List.mem_append, List.not_mem_nil, or_false] at hx
    rcases hx with rfl | rfl | hx | rfl
    · exact .name n.isName
    · exact hmark _ (by decide)
    · exact isWord_argumentWords arguments x hx
    · exact hmark _ (by decide)
  | constant n =>
    simpa [Item.words] using ⟨hmark _ (by decide), Word.name n.isName, hmark _ (by decide)⟩
  | parameter n =>
    simpa [Item.words] using ⟨hmark _ (by decide), Word.name n.isName, hmark _ (by decide)⟩

end

/-! ## Reading items -/

private theorem visible_names :
    ∀ name ∈ ["source_file", "declaration", "macro", "macro_body", "opcode", "macro_call",
    "referenced_parameter", "referenced_constant", "jumpdest", "jumpdest_label"],
      isHiddenName name = false := by
  simp only [isHiddenName, String.startsWith_string_eq_false_iff]
  decide

private theorem hidden_names :
    isHiddenName "_definition" = true ∧ isHiddenName "_macro_body_item" = true := by
  simp only [isHiddenName, String.startsWith_string_iff]
  decide

section
variable {k : Compilation} {under : List Kind} {leaves : List Leaf} {y : Nat} {symbols : List Nat}

private theorem begins_of_produces (hrow : Produces k.flat (y, symbols))
    (h : Begins k under leaves (symbols.map Kind.mk)) :
    Begins k under leaves [⟨y⟩] := by
  obtain ⟨q, p, hp, -, hlhs, hsteps⟩ := hrow
  rw [← hlhs]
  exact .of_production hp (hsteps ▸ h)

variable (hk : Compiles k (commentRows ++ macroRows)) {job : Job}
  (hlanguage : job.language = k.language) (hreuse : job.reuse = none) {x : List UInt8 × Nat}
  {xs : List (List UInt8 × Nat)} {n : Nat}
include hk

theorem Compiles.isVisible_named {i : Nat} {rule : String × Expr} (hi : draft.rules[i]? = some rule)
    (hmem : rule.1 ∈ ["source_file", "declaration", "macro", "macro_body", "opcode", "macro_call",
      "referenced_parameter", "referenced_constant", "jumpdest", "jumpdest_label"]) :
    k.language.isVisible ⟨210 + i⟩ = true := by
  rw [hk.isVisible_rule hi, visible_names _ hmem, Bool.not_false]

private theorem Compiles.isVisible_bodyItem : k.language.isVisible ⟨bodyItem⟩ = false :=
  (hk.isVisible_rule (i := 26) rfl).trans (congrArg not hidden_names.2)

include hlanguage hreuse

/-- Where words are the right-hand side, one tree covers them all. -/
private theorem Compiles.reads_phrase (hrow : Produces k.flat (y, symbols))
    (hvisible : k.language.isVisible ⟨y⟩ = true) (hy : y ≠ 209)
    (h : ReadsAll k job under (symbols.map Kind.mk) leaves n (Tree.Row k.language (x :: xs)))
    (hroom : n < reductionLimit) :
    Reads k job under ⟨y⟩ leaves
      (n + 1) (Tree.Row k.language [(spaced ((x :: xs).map (·.1)), y)]) := by
  refine (hk.reads_produced hlanguage hreuse hrow h hroom).mono ?_
  rintro closed ⟨ts, hts, hcloses⟩
  exact hts.reduced hcloses hvisible (hk.isExtra_of_ne hy)

/-- A repetition is read element by element, with the same number of reductions after each. -/
theorem Compiles.reads_repetition {α : Type} {r : Nat} (words row : α → List (List UInt8 × Nat))
    {parts : α → List Nat} (hhidden : k.language.isVisible ⟨r⟩ = false) (hroom : n < reductionLimit)
    (hone : ∀ a, Produces k.flat (r, parts a)) (hmore : ∀ a, Produces k.flat (r, r :: parts a))
    (hreads : ∀ a under leaves, ⟨leftBrace⟩ ∈ under → SpacedTokens k.language (words a) leaves →
      ReadsAll k job under ((parts a).map Kind.mk) leaves n (Tree.Row k.language (row a)) ∧
      Begins k under leaves ((parts a).map Kind.mk))
    {as : List α} (hne : as ≠ []) (hopen : ⟨leftBrace⟩ ∈ under)
    (h : SpacedTokens k.language (as.flatMap words) leaves) :
    Reads k job under ⟨r⟩ leaves (n + 1) (Tree.Row k.language (as.flatMap row)) := by
  induction as using List.reverseRecOn generalizing leaves with
  | nil => exact absurd rfl hne
  | append_singleton as a ih =>
    rw [List.flatMap_append, List.flatMap_singleton] at h
    rw [List.flatMap_append, List.flatMap_singleton]
    obtain ⟨first, later, rfl, hfirst, hlater⟩ := h.of_append
    by_cases hnil : as = []
    · subst hnil
      cases hfirst with
      | nil =>
        exact hk.reads_hidden hlanguage hreuse (hone a) (hreads a under later hopen hlater).1 hroom
          hhidden
    · have hlast := (hreads a (⟨r⟩ :: under) later (List.mem_cons_of_mem _ hopen) hlater).1
      have hall :=
        ReadsAll.cons hlanguage (ih hnil hfirst) hlast (hreads a under later hopen hlater).2
      refine (hk.reads_hidden hlanguage hreuse (hmore a) hall hroom hhidden).mono ?_
      rintro ts ⟨ts, us, rfl, hts, hus⟩
      exact hts.append hus

omit hlanguage hreuse in
private theorem Compiles.produces_argument (a : Argument) :
    Produces k.flat (macroCall, [identifierToken, openParen, a.word.2, closeParen]) ∧
    Produces k.flat (macroCall,
      [identifierToken, openParen, a.word.2, argumentRepeat, closeParen]) ∧
      Produces k.flat (argumentRepeat, [comma, a.word.2]) ∧
        Produces k.flat (argumentRepeat, [argumentRepeat, comma, a.word.2]) := by
  rcases a.symbol_eq with ha | ha
  · rw [ha]
    exact ⟨hk.rows _ (by decide), hk.rows _ (by decide), hk.rows _ (by decide),
      hk.rows _ (by decide)⟩
  · rw [ha]
    exact ⟨hk.rows _ (by decide), hk.rows _ (by decide), hk.rows _ (by decide),
      hk.rows _ (by decide)⟩

omit hlanguage hreuse in
private theorem Compiles.produces_item (item : Item) :
    Produces k.flat (bodyItem, [item.symbol]) ∧ item.symbol ≠ 209 := by
  have hsymbols : ∀ y ∈ itemSymbols, (bodyItem, [y]) ∈ commentRows ++ macroRows ∧
      y ≠ 209 := by decide
  obtain ⟨hrow, hne⟩ := hsymbols _ item.symbol_mem
  exact ⟨hk.rows _ hrow, hne⟩

private theorem Compiles.reads_arguments {arguments : List Argument} (hne : arguments ≠ [])
    (hopen : ⟨leftBrace⟩ ∈ under)
    (h : SpacedTokens k.language (arguments.flatMap (·.further)) leaves) :
    Reads k job under ⟨argumentRepeat⟩ leaves 1
      (Tree.Row k.language (arguments.flatMap (·.further))) := by
  refine hk.reads_repetition (n := 0) hlanguage hreuse Argument.further Argument.further
    (hk.isVisible_added (by decide)) (by decide) (fun a => (hk.produces_argument a).2.2.1)
    (fun a => (hk.produces_argument a).2.2.2) ?_ hne hopen h
  intro a under leaves hopen h
  exact ⟨hk.readsAll_words hlanguage hreuse h fun _ _ => .inl hopen,
    hk.begins_word h (.inl hopen) _⟩

/-- A call is read with all of its arguments. -/
private theorem Compiles.reads_call {name : Name} {arguments : List Argument}
    (hopen : ⟨leftBrace⟩ ∈ under)
    (h : SpacedTokens k.language (Item.call name arguments).words leaves) :
    ∃ symbols, Produces k.flat (macroCall, symbols) ∧
      ReadsAll k job under (symbols.map Kind.mk) leaves 0
        (Tree.Row k.language (Item.call name arguments).words) ∧
        Begins k under leaves (symbols.map Kind.mk) := by
  have hlegible (under : List Kind) (hopen : ⟨leftBrace⟩ ∈ under) (xs : List (List UInt8 × Nat)) :
      ∀ x ∈ xs, Legible under x :=
    fun _ _ => .inl hopen
  match arguments with
  | [] =>
    exact ⟨[identifierToken, openParen, closeParen], hk.rows _ (by decide),
      hk.readsAll_words hlanguage hreuse h (hlegible under hopen _),
      hk.begins_word h (.inl hopen) _⟩
  | [a] =>
    exact ⟨_, (hk.produces_argument a).1,
      hk.readsAll_words hlanguage hreuse h (hlegible under hopen _),
      hk.begins_word h (.inl hopen) _⟩
  | a :: b :: rest =>
    refine ⟨_, (hk.produces_argument a).2.1, ?_, hk.begins_word h (.inl hopen) _⟩
    have hwords : (Item.call name (a :: b :: rest)).words =
        [(name.text, identifierToken), mark ("(", openParen), a.word] ++
          ((b :: rest).flatMap (·.further) ++ [mark (")", closeParen)]) := rfl
    rw [hwords] at h ⊢
    obtain ⟨front, later, rfl, hfront, hlater⟩ := h.of_append
    obtain ⟨middle, last, rfl, hmiddle, hlast⟩ := hlater.of_append
    have hrest (more : List Kind) (hmore : under ⊆ more) :
        ReadsAll k job more [⟨argumentRepeat⟩, ⟨closeParen⟩] (middle ++ last) 0
        (Tree.Row k.language ((b :: rest).flatMap (·.further) ++ [mark (")", closeParen)])) := by
      have hopen := hmore hopen
      have hclose := hk.readsAll_words hlanguage hreuse hlast
        (hlegible (⟨argumentRepeat⟩ :: more) (List.mem_cons_of_mem _ hopen) _)
      refine (ReadsAll.cons hlanguage
        (hk.reads_arguments hlanguage hreuse (List.cons_ne_nil b rest) hopen hmiddle) hclose
        (hk.begins_word hlast (.inl hopen) _)).mono ?_
      rintro ts ⟨ts, us, rfl, hts, hus⟩
      exact hts.append hus
    refine (hk.readsAll_words_append hlanguage hreuse hfront (hlegible under hopen _)
      fun more hmore _ => hrest more hmore).mono ?_
    rintro ts ⟨ts, us, rfl, hts, hus⟩
    exact hts.row.append hus

/-- A rule for an item is read as the item. -/
private theorem Compiles.reads_rule {item : Item} (hwords : item.words = x :: xs)
    (hrow : Produces k.flat (item.symbol, symbols))
    (hvisible : k.language.isVisible ⟨item.symbol⟩ = true)
    (h : ReadsAll k job under (symbols.map Kind.mk) leaves 0 (Tree.Row k.language item.words))
    (hbegins : Begins k under leaves (symbols.map Kind.mk)) :
    ReadsAll k job under [⟨bodyItem⟩] leaves 2 (Tree.Row k.language [(item.text, item.symbol)]) ∧
      Begins k under leaves [⟨bodyItem⟩] := by
  obtain ⟨hbody, hne⟩ := hk.produces_item item
  rw [Item.text, ← item.words_fst]
  rw [hwords] at h ⊢
  have hphrase := hk.reads_phrase hlanguage hreuse hrow hvisible hne h (by decide)
  exact ⟨.single
    (hk.reads_hidden hlanguage hreuse hbody (.single hphrase) (by decide) hk.isVisible_bodyItem),
    begins_of_produces hbody (begins_of_produces hrow hbegins)⟩

/-- Behind an opening brace, every item is read with two reductions at the end. -/
theorem Compiles.reads_item (item : Item) (hopen : ⟨leftBrace⟩ ∈ under)
    (h : SpacedTokens k.language item.words leaves) :
    ReadsAll k job under [⟨bodyItem⟩] leaves 2 (Tree.Row k.language [(item.text, item.symbol)]) ∧
      Begins k under leaves [⟨bodyItem⟩] := by
  have hlegible (xs : List (List UInt8 × Nat)) : ∀ x ∈ xs, Legible under x := fun _ _ => .inl hopen
  have hwords {x : List UInt8 × Nat} {xs : List (List UInt8 × Nat)} (heq : item.words = x :: xs)
      (hrow : Produces k.flat (item.symbol, (x :: xs).map (·.2)))
      (hvisible : k.language.isVisible ⟨item.symbol⟩ = true) :
      ReadsAll k job under [⟨bodyItem⟩] leaves 2 (Tree.Row k.language [(item.text, item.symbol)]) ∧
        Begins k under leaves [⟨bodyItem⟩] := by
    rw [heq] at h
    have hreads := hk.readsAll_words hlanguage hreuse h (hlegible _)
    have hbegins := hk.begins_word h (.inl hopen) (xs.map (⟨·.2⟩))
    have hsymbols : ((x :: xs).map (·.2)).map Kind.mk = (x :: xs).map (⟨·.2⟩) := by
      rw [List.map_map]; rfl
    exact hk.reads_rule hlanguage hreuse heq hrow hvisible
      (hsymbols ▸ heq ▸ hreads) (hsymbols ▸ hbegins)
  cases item with
  | opcode mnemonic known =>
    exact hwords rfl (hk.mnemonic known).2 (hk.isVisible_named (i := 27) rfl (by decide))
  | number n =>
    have hrow := (hk.produces_item (.number n)).1
    have htoken := hk.readsAll_words hlanguage hreuse h (hlegible _)
    have hhidden :=
      (hk.reads_hidden hlanguage hreuse hrow htoken (by decide) hk.isVisible_bodyItem).weaken
        (Nat.le_succ 1)
    have htext : (Item.number n).text = n.text := by simp [Item.text, Item.tokens]
    rw [htext]
    exact ⟨.single hhidden, begins_of_produces hrow (hk.begins_word h (.inl hopen) _)⟩
  | jumpdest n =>
    exact hwords rfl (hk.rows (Huff.jumpdest, [identifierToken]) (by decide))
      (hk.isVisible_named (i := 31) rfl (by decide))
  | label n =>
    exact hwords rfl (hk.rows (jumpdestLabel, [identifierToken, colon]) (by decide))
      (hk.isVisible_named (i := 32) rfl (by decide))
  | call n arguments =>
    obtain ⟨symbols, hrow, hreads, hbegins⟩ := hk.reads_call hlanguage hreuse hopen h
    exact hk.reads_rule hlanguage hreuse rfl hrow
      (hk.isVisible_named (i := 28) rfl (by decide)) hreads hbegins
  | constant n =>
    exact hwords rfl
      (hk.rows (referencedConstant, [openBracket, identifierToken, closeBracket]) (by decide))
      (hk.isVisible_named (i := 30) rfl (by decide))
  | parameter n =>
    exact hwords rfl (hk.rows (referencedParameter, [less, identifierToken, greater]) (by decide))
      (hk.isVisible_named (i := 29) rfl (by decide))

/-! ## Reading macros -/

/-- The tree of a macro body, over braces and trees for its items. -/
def IsBody (l : Language) (items : List Item) : Tree → Prop :=
  Tree.Lists l macroBody (mark ("\x7b", leftBrace))
    (items.map Item.cover ++ [mark ("\x7d", rightBrace)])

private theorem Compiles.reads_items {items : List Item} (hne : items ≠ [])
    (hopen : ⟨leftBrace⟩ ∈ under) (h : SpacedTokens k.language (items.flatMap (·.words)) leaves) :
    Reads k job under ⟨bodyRepeat⟩ leaves 3 (Tree.Row k.language (items.map Item.cover)) := by
  rw [List.map_eq_flatMap]
  refine hk.reads_repetition (n := 2) hlanguage hreuse Item.words
    (fun item => [item.cover]) (hk.isVisible_added (by decide)) (by decide)
    (fun _ => hk.rows (bodyRepeat, [bodyItem]) (by decide))
    (fun _ => hk.rows (bodyRepeat, [bodyRepeat, bodyItem]) (by decide))
    ?_ hne hopen h
  exact fun item under leaves hopen h => hk.reads_item hlanguage hreuse item hopen h

/-- A macro body is read item by item. -/
theorem Compiles.reads_body {items : List Item}
    (h : SpacedTokens k.language (bodyWords items) leaves) :
    Reads k job under ⟨macroBody⟩ leaves 1
      (Tree.AfterBlank k.language (IsBody k.language items)) := by
  have hbrace : ∀ x ∈ [mark ("\x7b", leftBrace)], Legible under x := by
    intro x hx
    rw [List.mem_singleton.1 hx]
    exact .inr (.inl (by decide))
  obtain ⟨symbols, hrow, hreads⟩ : ∃ symbols, Produces k.flat (macroBody, symbols) ∧
      ReadsAll k job under (symbols.map Kind.mk) leaves 0
        (Tree.Row k.language (mark ("\x7b", leftBrace) ::
        (items.map Item.cover ++ [mark ("\x7d", rightBrace)]))) := by
    have h : SpacedTokens k.language
        ([mark ("\x7b", leftBrace)] ++ (items.flatMap (·.words) ++ [mark ("\x7d", rightBrace)]))
        leaves := h
    obtain ⟨first, later, rfl, hfirst, hlater⟩ := h.of_append
    obtain ⟨middle, last, rfl, hmiddle, hlast⟩ := hlater.of_append
    have hclose (more : List Kind) (hopen : ⟨leftBrace⟩ ∈ more) :
        ReadsAll k job more [⟨rightBrace⟩] last 0
        (Tree.Row k.language [mark ("\x7d", rightBrace)]) :=
      hk.readsAll_words hlanguage hreuse hlast fun _ _ => .inl hopen
    by_cases hnil : items = []
    · subst hnil
      cases hmiddle with
      | nil =>
        refine ⟨[leftBrace, rightBrace], hk.rows _ (by decide),
          (hk.readsAll_words_append hlanguage hreuse hfirst hbrace fun more _ hkinds =>
          hclose more (hkinds List.mem_cons_self)).mono ?_⟩
        rintro ts ⟨ts, us, rfl, hts, hus⟩
        exact hts.row.append hus
    · have hrest (more : List Kind) (hopen : ⟨leftBrace⟩ ∈ more) := ReadsAll.cons hlanguage
        (hk.reads_items hlanguage hreuse hnil hopen hmiddle)
        (hclose (⟨bodyRepeat⟩ :: more) (List.mem_cons_of_mem _ hopen))
        (hk.begins_word hlast (.inl hopen) [])
      refine ⟨[leftBrace, bodyRepeat, rightBrace], hk.rows _ (by decide),
        (hk.readsAll_words_append hlanguage hreuse hfirst hbrace fun more _ hkinds =>
        hrest more (hkinds List.mem_cons_self)).mono ?_⟩
      rintro ts ⟨ts, us, rfl, hts, ts', us', rfl, hts', hus'⟩
      exact hts.row.append (hts'.append hus')
  refine (hk.reads_produced hlanguage hreuse hrow hreads (by decide)).mono ?_
  rintro closed ⟨ts, hts, hcloses⟩
  exact hts.lists hcloses (hk.isVisible_named (i := 25) rfl (by decide))

/-- The tree of a macro with some items in its body. -/
def IsMacro (l : Language) (items : List Item) : Tree → Prop :=
  Tree.Wraps macroRule (spaced (macroWords.map (·.1)) ++ [blank]) (IsBody l items)

def IsDeclaration (l : Language) (items : List Item) : Tree → Prop :=
  Tree.Wraps declaration (bytes "#define" ++ [blank]) (IsMacro l items)

/-- The name of a macro is no keyword, so that the words in front of the body are read for what they
are. -/
theorem Compiles.reads_macro {items : List Item}
    (h : SpacedTokens k.language (macroWords ++ bodyWords items) leaves) :
    Reads k job under ⟨macroRule⟩ leaves 2
      (Tree.AfterBlank k.language (IsMacro k.language items)) := by
  have hlegible : ∀ x ∈ macroWords, Legible under x := by
    have hwords : ∀ x ∈ macroWords, x.2 ≠ identifierToken ∨
        x.1.head? = some macroLetter := by decide
    exact fun x hx => .inr (hwords x hx)
  obtain ⟨first, later, rfl, hfirst, hlater⟩ := h.of_append
  have hbody (more : List Kind) : ReadsAll k job more [⟨macroBody⟩] later 1
      (Tree.AfterBlank k.language (IsBody k.language items)) :=
    .single (hk.reads_body hlanguage hreuse hlater)
  have hreads :=
    hk.readsAll_words_append hlanguage hreuse hfirst hlegible fun more _ _ => hbody more
  have hrow : Produces k.flat (macroRule,
      [macroWord, identifierToken, openParen, closeParen, equals, takesWord, openParen, numberToken,
    closeParen, macroBody]) := hk.rows _ (by decide)
  refine (hk.reads_produced hlanguage hreuse hrow hreads (by decide)).mono ?_
  rintro closed ⟨_, ⟨ts, us, rfl, hts, hus⟩, hcloses⟩
  exact Tree.Wraps.of_closes hts.row hts.leaves hus hcloses
    (hk.isVisible_named (i := 12) rfl (by decide))

private theorem Compiles.reads_declaration {items : List Item} {leaf : Leaf}
    (hleaf : IsToken (mark ("#define", defineWord)) leaf)
    (h : SpacedTokens k.language (macroWords ++ bodyWords items) leaves) :
    Reads k job under ⟨declaration⟩ (leaf :: leaves) 3 fun ts => ∃ node, ts = [node] ∧
      IsDeclaration k.language items node := by
  have hpiece : Piece.Fits ⟨#[], leaf, ⟨defineWord⟩⟩ k under :=
    hk.fits_piece hleaf (.inr (.inl (by decide))) fun _ h => absurd h (Array.not_mem_empty _)
  have hreads :=
    ReadsAll.piece hk.single hlanguage hreuse hpiece (.single (hk.reads_macro hlanguage hreuse h))
  have hrow : Produces k.flat (declaration, [defineWord, macroRule]) := hk.rows _ (by decide)
  have hfirst := hk.covers_token hleaf
  refine (hk.reads_node hlanguage hreuse hrow hreads (by decide)
    (hk.isVisible_named (i := 8) rfl (by decide)) ?_).mono ?_
  · rintro _ ⟨us, rfl, hus⟩ t ⟨⟩
    exact hfirst.isTrivia
  · rintro closed ⟨_, node, ⟨us, rfl, hus⟩, rfl, hnode⟩
    have hwraps := Tree.Wraps.of_node hfirst .nil (by simp [Tree.isNode]) hus hnode
    exact ⟨node, rfl, by simpa [IsDeclaration, mark] using hwraps⟩

end

/-! ## Places of items -/

private theorem words_header : header = bytes "#define" :: macroWords.map (·.1) := rfl

private theorem bodyWords_fst (items : List Item) : (bodyWords items).map (·.1) =
    bytes "\x7b" :: (items.flatMap (·.tokens) ++ [bytes "\x7d"]) := by
  rw [bodyWords, List.map_cons, List.map_append, List.map_flatMap]
  simp only [Item.words_fst, List.map_cons, List.map_nil, mark]

/-- Items in a body have blanks between them as their tokens have. -/
private theorem led_items (items : List Item) :
    led (items.flatMap (·.tokens)) = led (items.map (·.text)) := by
  induction items with
  | nil => rfl
  | cons item items ih =>
    have hne : item.tokens ≠ [] := by cases item <;> simp [Item.tokens]
    rw [List.flatMap_cons, led_append, ih, led_eq_cons hne, List.map_cons,
      led_cons, List.cons_append]
    rfl

/-- The text of a macro, with the items in their places. -/
private theorem macroOver_eq (items : List Item) :
    (macroOver items).toList = spaced header ++ [blank] ++
      spaced (bytes "\x7b" :: (items.map Item.cover ++ [mark ("\x7d", rightBrace)]).map (·.1)) := by
  have htexts : (items.map Item.cover ++ [mark ("\x7d", rightBrace)]).map (·.1) =
      items.map (·.text) ++ [bytes "\x7d"] := by
    rw [List.map_append, List.map_map]
    rfl
  rw [macroOver, htexts, words_header, List.cons_append, spaced_cons, spaced_cons, spaced_cons,
    led_append, led_cons, led_append, led_append, led_items]
  simp

section
variable {k : Compilation} (hk : Compiles k (commentRows ++ macroRows))
include hk

private theorem Compiles.kindName_mark {m : String × Nat} (hm : m ∈ marks) :
    k.language.kindName ⟨m.2⟩ = m.1 := by
  obtain ⟨f⟩ := hk.flattening
  have hle : 2 ≤ m.2 := by
    have hplain := List.all_eq_true.1 marks_plain m hm
    exact Nat.le_of_ble_eq_true (Bool.and_eq_true_iff.1 hplain).1
  have hsymbol := f.symbol_terminal (getElem?_terminals_mark hm)
  rw [Nat.sub_add_cancel hle] at hsymbol
  have hget : k.language.symbol? ⟨m.2⟩ = some (Terminal.literal m.1).symbol := hsymbol
  rw [Language.kindName, hget]
  rfl

private theorem Compiles.kindName_item (item : Item) :
    k.language.kindName ⟨item.symbol⟩ = item.kindName := by
  cases item with
  | number n =>
    obtain ⟨f⟩ := hk.flattening
    have hget : k.language.symbol? ⟨numberToken⟩ = some _ :=
      f.symbol_terminal (hk.token (n := 1) rfl)
    rw [Item.symbol, Language.kindName, hget]
    rfl
  | opcode mnemonic known => exact hk.kindName_rule (i := 27) rfl
  | jumpdest n => exact hk.kindName_rule (i := 31) rfl
  | label n => exact hk.kindName_rule (i := 32) rfl
  | call n arguments => exact hk.kindName_rule (i := 28) rfl
  | constant n => exact hk.kindName_rule (i := 30) rfl
  | parameter n => exact hk.kindName_rule (i := 29) rfl

private theorem Compiles.isWord_bodyWords (items : List Item) :
    ∀ x ∈ bodyWords items, Word x.1 x.2 := by
  intro x hx
  rcases List.mem_cons.1 hx with rfl | hx
  · exact word_mark (by decide)
  · rcases List.mem_append.1 hx with hx | hx
    · obtain ⟨item, -, hx⟩ := List.mem_flatMap.1 hx
      exact hk.isWord_item item x hx
    · rw [List.mem_singleton.1 hx]
      exact word_mark (by decide)

/-- The names of the kinds of what is in a body. -/
private theorem Compiles.kindNames_body (items : List Item) :
    (mark ("\x7b", leftBrace) :: (items.map Item.cover ++ [mark ("\x7d", rightBrace)])).map
        (fun x => (x.1, k.language.kindName ⟨x.2⟩)) =
          (bytes "\x7b", "\x7b") :: (items.map fun item => (item.text, item.kindName)) ++
            [(bytes "\x7d", "\x7d")] := by
  have hopen : k.language.kindName ⟨leftBrace⟩ = "\x7b" :=
    hk.kindName_mark (m := ("\x7b", leftBrace)) (by decide)
  have hclose : k.language.kindName ⟨rightBrace⟩ = "\x7d" :=
    hk.kindName_mark (m := ("\x7d", rightBrace)) (by decide)
  simp only [List.map_cons, List.map_append, List.map_map, List.map_nil, Function.comp_def, mark,
    Item.cover, hk.kindName_item, hopen, hclose, List.cons_append]

/-- The tree that is made of the text of a macro. -/
theorem Compiles.root_of_macro {items : List Item} (hsize : (macroOver items).size ≤ Text.maxSize) :
    Tree.Wraps sourceFile [] (IsDeclaration k.language items)
      (({ language := k.language } : Parser).parse (macroOver items)).root := by
  have hwords : ∀ x ∈ macroWords ++ bodyWords items, Word x.1 x.2 := fun x hx =>
    (List.mem_append.1 hx).elim (isWord_macroWords x) (hk.isWord_bodyWords items x)
  have hsource : (macroOver items).toList =
      spaced (bytes "#define" :: (macroWords ++ bodyWords items).map (·.1)) := by
    rw [macroOver, List.map_append, bodyWords_fst]
    rfl
  obtain ⟨leaf, leaves, hleaves, hleaf, hmore⟩ :=
    hk.leaves_spaced (x := mark ("#define", defineWord)) hsize
      (word_mark (by decide)) hwords hsource
  have hreuse : (({ language := k.language } : Parser).job (macroOver items) none []).reuse =
      none := by
    rw [Parser.job_without_reuse (.inr rfl)]
  have hreads : Reads k _ [] _ _ _ _ := hk.reads_declaration rfl hreuse hleaf hmore
  rw [← hleaves] at hreads
  obtain ⟨node, hnode, hroot⟩ :=
    (hk.mono (List.subset_append_left _ _)).root_of_definition rfl hreuse
    (hk.rows (definition, [declaration]) (by decide)) hreads
    (fun node hnode => hnode.isNode) (by decide)
  exact ⟨[], node, hroot, nofun, rfl, rfl, hnode.isNode, hnode⟩

end

/-- A macro with any items in its body is parsed without errors, and the children of the body are
its braces and, between them, one child for each item: of the kind of the item, at its place and
with its text. -/
theorem parse_macroBody (mode : Table.Mode) : ∃ c, compile mode = .ok c ∧ ∀ items : List Item,
    (macroOver items).size < 2 ^ 32 →
      let t := ({ language := c.language } : Parser).parse (macroOver items)
      t.hasErrors = false ∧ ∃ outer inner body : Tree.Cursor,
      (Tree.Cursor.root t.root).childNodes = [outer] ∧
        c.language.kindName outer.tree.kind = "declaration" ∧ outer.childNodes = [inner] ∧
        c.language.kindName inner.tree.kind = "macro" ∧ inner.childNodes = [body] ∧
        c.language.kindName body.tree.kind = "macro_body" ∧
        ((body.children.filter fun n => !c.language.isExtra n.tree.kind).map fun n =>
          (c.language.kindName n.tree.kind, n.offset, t.slice n.range)) =
            layout ((spaced header).length + 1) ((bytes "\x7b", "\x7b") ::
            (items.map fun item => (item.text, item.kindName)) ++ [(bytes "\x7d", "\x7d")]) := by
  obtain ⟨k, -, hk, hcompile⟩ := exists_compiles_rows mode
  refine ⟨_, hcompile, fun items hsize => ?_⟩
  intro t
  have hmax : (macroOver items).size ≤ Text.maxSize := Nat.le_of_lt_succ hsize
  have hroot := hk.root_of_macro hmax
  have hfaithful : t.Faithful := Parser.faithful_parse k rfl hmax fun t ht =>
    absurd ht (by simp [Parser.usable])
  have hexact : (Tree.Cursor.root t.root).Exact := ⟨hfaithful.consistent, by
    rw [Tree.Cursor.offset, Tree.Cursor.tree, Nat.zero_add, hfaithful.spells]
    exact hfaithful.size⟩
  obtain ⟨outer, hchildren, houter, hoffset, hexact⟩ :=
    Tree.Wraps.childNodes (c := .root t.root) hroot hexact
  obtain ⟨inner, hchildren', hinner, hoffset', hexact⟩ := houter.childNodes hexact
  obtain ⟨body, hchildren'', hbody, hoffset'', hexact⟩ := hinner.childNodes hexact
  have hstart : body.offset = (spaced header ++ [blank]).length := by
    have hzero : (Tree.Cursor.root t.root).offset = 0 := rfl
    have hne : macroWords.map (·.1) ≠ [] := List.cons_ne_nil _ _
    rw [hoffset'', hoffset', hoffset, hzero, words_header, spaced_cons, led_eq_cons hne]
    simp only [List.length_append, List.length_cons, List.length_nil]
    omega
  have hsource : t.source.toList = spaced header ++ [blank] ++ (spaced (bytes "\x7b" ::
      (items.map Item.cover ++ [mark ("\x7d", rightBrace)]).map (·.1)) ++ []) := by
    rw [List.append_nil]
    exact macroOver_eq items
  refine ⟨hroot.hasError fun outer houter => houter.hasError fun inner hinner =>
    hinner.hasError fun body hbody => hbody.hasError, outer, inner, body, hchildren, ?_, hchildren',
      ?_, hchildren'', ?_, ?_⟩
  · rw [houter.kind]
    exact hk.kindName_rule (i := 8) rfl
  · rw [hinner.kind]
    exact hk.kindName_rule (i := 12) rfl
  · obtain ⟨u, us, hnode, -⟩ := hbody
    rw [hnode.kind]
    exact hk.kindName_rule (i := 25) rfl
  · have hreport := hbody.report hexact hstart hsource hmax
    rw [hk.kindNames_body, List.length_append] at hreport
    exact hreport

/-- Items of every sort, with keywords for names. -/
def sampleItems : List Item :=
  let name (text : String) (h : isNameText (bytes text) = true) : Name :=
    ⟨bytes text, isName_iff.2 h⟩
  let digit (b : UInt8) (h : (Pattern.oneOf .digits).opens b = true) : Number :=
    ⟨[b], mem_number_of_digit h⟩
  [.opcode "mload" (by decide), .number (digit 55 (by cbv)), .jumpdest (name "takes" (by cbv)),
    .label (name "returns" (by cbv)),
    .call (name "macro" (by cbv)) [.number (digit 56 (by cbv)), .name (name "uint256" (by cbv))],
    .constant (name "memory" (by cbv)), .parameter (name "fn" (by cbv))]

theorem parse_macroBody_keywords :
    ∃ c, compile .lalr = .ok c ∧ (macroOver sampleItems).size < 2 ^ 32 ∧
      let t := ({ language := c.language } : Parser).parse (macroOver sampleItems)
      t.hasErrors = false ∧ ∃ outer inner body : Tree.Cursor,
      (Tree.Cursor.root t.root).childNodes = [outer] ∧
        c.language.kindName outer.tree.kind = "declaration" ∧ outer.childNodes = [inner] ∧
        c.language.kindName inner.tree.kind = "macro" ∧ inner.childNodes = [body] ∧
        c.language.kindName body.tree.kind = "macro_body" ∧
        ((body.children.filter fun n => !c.language.isExtra n.tree.kind).map fun n =>
          (c.language.kindName n.tree.kind, n.offset, t.slice n.range)) =
            [("\x7b", 34, Text.ofString "\x7b"), ("opcode", 36, Text.ofString "mload"),
            ("number", 42, Text.ofString "7"),
              ("jumpdest", 44, Text.ofString "takes"),
              ("jumpdest_label", 50, Text.ofString "returns :"),
              ("macro_call", 60, Text.ofString "macro ( 8 , uint256 )"),
              ("referenced_constant", 82, Text.ofString "[ memory ]"),
              ("referenced_parameter", 93, Text.ofString "< fn >"),
              ("\x7d", 100, Text.ofString "\x7d")] := by
  obtain ⟨c, hcompile, hparse⟩ := parse_macroBody .lalr
  have hsize : (macroOver sampleItems).size < 2 ^ 32 := by cbv
  exact ⟨c, hcompile, hsize, hparse sampleItems hsize⟩

end Reparse.Huff
