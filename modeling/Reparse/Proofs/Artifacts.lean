import Reparse.Language.Artifact
import Reparse.Proofs.Parsing
import Reparse.Proofs.Records

/-! # Languages can be read back from their artifacts -/
namespace Reparse.Artifact
open Json

/-! ## Numbers that fit their widths -/

def FitsDfa (d : Lexer.Dfa) : Prop := ∀ s ∈ d.states,
  (∀ t ∈ s.transitions, t.target ≤ max32) ∧ ∀ n, s.accept = some n → n ≤ max32

structure FitsOutcome (r : Lexer.Outcome) : Prop where
  kind : r.kind.id ≤ max16
  mode : r.mode ≤ max16
  next : ∀ m, r.nextMode = some m → m ≤ max16

structure FitsLexer (l : Lexer) : Prop where
  modes : ∀ m ∈ l.modes, FitsDfa m.dfa
  rules : ∀ r ∈ l.rules, FitsOutcome r
  word : ∀ d, l.word = some d → FitsDfa d

def FitsAction : Table.Action → Prop
  | .shift state => state ≤ max32
  | .reduce production => production ≤ max32
  | .accept => True

structure FitsProduction (p : Table.ProductionInfo) : Prop where
  lhs : p.lhs.id ≤ max16
  fields : ∀ f ∈ p.fields, ∀ g, f = some g → g.id ≤ max16
  dynamic : -2147483648 ≤ p.dynamic ∧ p.dynamic ≤ 2147483647

structure FitsTable (t : Table) : Prop where
  actions : ∀ row ∈ t.actions, ∀ e ∈ row, e.1.id ≤ max16 ∧ FitsAction e.2
  gotos : ∀ row ∈ t.gotos, ∀ e ∈ row, e.1.id ≤ max16 ∧ e.2 ≤ max32
  productions : ∀ p ∈ t.productions, FitsProduction p

/-- The numbers of the language fit the widths that they are stored with. -/
structure Fits (l : Language) : Prop where
  version : l.metadata.formatVersion ≤ max32
  terminals : l.terminalCount ≤ max64
  lexer : FitsLexer l.lexer
  table : FitsTable l.table
  extras : ∀ k ∈ l.extras, k.id ≤ max16
  word : ∀ k, l.word = some k → k.id ≤ max16
  start : l.start.id ≤ max16

/-! ## Parts -/

theorem roundTrips_kind {k : Kind} (h : k.id ≤ max16) : RoundTrips ofKind kind? k where
  plain := plain_ofNat k.id
  back := by rw [kind?, ofKind, nat?_ofNat h]; rfl

private theorem roundTrips_field {f : Field} (h : f.id ≤ max16) : RoundTrips ofField field? f where
  plain := plain_ofNat f.id
  back := by rw [field?, ofField, nat?_ofNat h]; rfl

private theorem roundTrips_byte (b : UInt8) : RoundTrips (fun b => ofNat b.toNat) byte? b where
  plain := plain_ofNat b.toNat
  back := by
    have h : b.toNat ≤ max8 := Nat.le_of_lt_succ b.toNat_lt
    simp [byte?, nat?_ofNat h]

private theorem roundTrips_metadata {m : Metadata} (h : m.formatVersion ≤ max32) :
    RoundTrips ofMetadata metadata? m where
  plain := plain_ofMembers ⟨plain_ofNat _, .string _, .string _⟩
  back := by
    have hrecord : record? ["format_version", "name", "version"] (ofMetadata m) =
        some [some (ofNat m.formatVersion), some (ofString m.name), some (ofString m.version)] :=
      record?_own rfl (by decide)
    simp [metadata?, hrecord, required, nat?_ofNat h, (roundTrips_string _).back, ofString]

private theorem roundTrips_symbol (s : SymbolInfo) : RoundTrips ofSymbol symbol? s where
  plain := plain_ofMembers ⟨.string _, .bool _, .bool _, .bool _⟩
  back := by
    have hrecord : record? ["name", "terminal", "visible", "named"] (ofSymbol s) =
        some [some (ofString s.name), some (ofBool s.terminal), some (ofBool s.visible),
        some (ofBool s.named)] :=
      record?_own rfl (by decide)
    simp [symbol?, hrecord, required, (roundTrips_string _).back, (roundTrips_bool _).back,
      ofString]

/-! ## Lexers -/

private theorem roundTrips_transition {t : Lexer.Transition} (h : t.target ≤ max32) :
    RoundTrips ofTransition transition? t where
  plain := plain_ofMembers ⟨plain_ofNat _, plain_ofNat _, plain_ofNat _⟩
  back := by
    have hrecord : record? ["lo", "hi", "target"] (ofTransition t) =
        some [some (ofNat t.lo.toNat), some (ofNat t.hi.toNat), some (ofNat t.target)] :=
      record?_own rfl (by decide)
    simp [transition?, hrecord, required, nat?_ofNat h, (roundTrips_byte _).back]

private theorem roundTrips_dfaState {s : Lexer.DfaState}
    (htargets : ∀ t ∈ s.transitions, t.target ≤ max32)
    (haccept : ∀ n, s.accept = some n → n ≤ max32) : RoundTrips ofDfaState dfaState? s := by
  have hrows := RoundTrips.array fun t ht => roundTrips_transition (htargets t ht)
  have hoption := RoundTrips.option ofNat_ne_null fun n hn => roundTrips_nat (haccept n hn)
  have hrecord : record? ["transitions", "accept"] (ofDfaState s) =
      some [some (ofArray ofTransition s.transitions), some (ofOption ofNat s.accept)] :=
    record?_own rfl (by decide)
  refine ⟨plain_ofMembers ⟨hrows.plain, hoption.plain⟩, ?_⟩
  simp [dfaState?, hrecord, required, Json.optional, hrows.back, hoption.back]

private theorem roundTrips_dfa {d : Lexer.Dfa} (h : FitsDfa d) : RoundTrips ofDfa dfa? d := by
  have hstates := RoundTrips.array fun s hs => roundTrips_dfaState (h s hs).1 (h s hs).2
  have hrecord : record? ["states"] (ofDfa d) = some [some (ofArray ofDfaState d.states)] :=
    record?_own rfl (by decide)
  refine ⟨plain_ofMembers hstates.plain, ?_⟩
  simp [dfa?, hrecord, required, hstates.back]

private theorem ofDfa_ne_null (d : Lexer.Dfa) : ofDfa d ≠ .null := nofun

private theorem roundTrips_mode {m : Lexer.Mode} (h : FitsDfa m.dfa) :
    RoundTrips ofMode mode? m where
  plain := plain_ofMembers ⟨.string _, (roundTrips_dfa h).plain⟩
  back := by
    have hrecord : record? ["name", "dfa"] (ofMode m) =
        some [some (ofString m.name), some (ofDfa m.dfa)] :=
      record?_own rfl (by decide)
    simp [mode?, hrecord, required, (roundTrips_string _).back, (roundTrips_dfa h).back, ofString]

private theorem roundTrips_outcome {r : Lexer.Outcome} (h : FitsOutcome r) :
    RoundTrips ofOutcome outcome? r := by
  have hnext := RoundTrips.option ofNat_ne_null fun n hn => roundTrips_nat (h.next n hn)
  have hrecord : record? ["kind", "mode", "next_mode"] (ofOutcome r) =
      some [some (ofKind r.kind), some (ofNat r.mode), some (ofOption ofNat r.nextMode)] :=
    record?_own rfl (by decide)
  refine ⟨plain_ofMembers ⟨plain_ofNat _, plain_ofNat _, hnext.plain⟩, ?_⟩
  simp [outcome?, hrecord, required, Json.optional, (roundTrips_kind h.kind).back,
    nat?_ofNat h.mode, hnext.back]

private theorem roundTrips_lexer {l : Lexer} (h : FitsLexer l) : RoundTrips ofLexer lexer? l := by
  have hmodes := RoundTrips.array fun m hm => roundTrips_mode (h.modes m hm)
  have hrules := RoundTrips.array fun r hr => roundTrips_outcome (h.rules r hr)
  have hword := RoundTrips.option ofDfa_ne_null fun d hd => roundTrips_dfa (h.word d hd)
  have hrecord : record? ["modes", "rules", "word"] (ofLexer l) =
      some [some (ofArray ofMode l.modes), some (ofArray ofOutcome l.rules),
      some (ofOption ofDfa l.word)] :=
    record?_own rfl (by decide)
  refine ⟨plain_ofMembers ⟨hmodes.plain, hrules.plain, hword.plain⟩, ?_⟩
  simp [lexer?, hrecord, required, Json.optional, hmodes.back, hrules.back, hword.back]

/-! ## Tables -/

private theorem roundTrips_action {a : Table.Action} (h : FitsAction a) :
    RoundTrips ofAction action? a := by
  cases a with
  | shift state =>
    refine ⟨plain_ofMembers (plain_ofNat _), ?_⟩
    simp [ofAction, ofMembers, action?, unescape?_escape, nat?_ofNat (show state ≤ max32 from h)]
  | reduce production =>
    refine ⟨plain_ofMembers (plain_ofNat _), ?_⟩
    simp [ofAction, ofMembers, action?, unescape?_escape,
      nat?_ofNat (show production ≤ max32 from h)]
  | accept =>
    refine ⟨.string _, ?_⟩
    simp [ofAction, ofString, Json.ofString, action?, unescape?_escape]

private theorem ofField_ne_null (f : Field) : ofField f ≠ .null := nofun

private theorem roundTrips_production {p : Table.ProductionInfo} (h : FitsProduction p) :
    RoundTrips ofProduction production? p := by
  have hfields := RoundTrips.array fun f hf => RoundTrips.option ofField_ne_null fun g hg =>
    roundTrips_field (h.fields f hf g hg)
  have hrecord : record? ["lhs", "fields", "dynamic_precedence"] (ofProduction p) =
      some [some (ofKind p.lhs), some (ofArray (ofOption ofField) p.fields),
      some (ofInt p.dynamic)] :=
    record?_own rfl (by decide)
  refine ⟨plain_ofMembers ⟨plain_ofNat _, hfields.plain, .integer _⟩, ?_⟩
  simp [production?, hrecord, required, (roundTrips_kind h.lhs).back, hfields.back,
    (roundTrips_int h.dynamic).back]

private theorem roundTrips_table {t : Table} (h : FitsTable t) : RoundTrips ofTable table? t := by
  have hactions := RoundTrips.array fun row hrow => RoundTrips.array fun e he =>
    RoundTrips.pair (roundTrips_kind (h.actions row hrow e he).1)
      (roundTrips_action (h.actions row hrow e he).2)
  have hgotos := RoundTrips.array fun row hrow => RoundTrips.array fun e he =>
    RoundTrips.pair (roundTrips_kind (h.gotos row hrow e he).1)
      (roundTrips_nat (h.gotos row hrow e he).2)
  have hproductions := RoundTrips.array fun p hp => roundTrips_production (h.productions p hp)
  have hrecord : record? ["actions", "gotos", "productions"] (ofTable t) =
      some [some (ofArray (ofArray (ofPair ofKind ofAction)) t.actions),
      some (ofArray (ofArray (ofPair ofKind ofNat)) t.gotos),
        some (ofArray ofProduction t.productions)] := record?_own rfl (by decide)
  refine ⟨plain_ofMembers ⟨hactions.plain, hgotos.plain, hproductions.plain⟩, ?_⟩
  simp [table?, hrecord, required, hactions.back, hgotos.back, hproductions.back]

/-! ## Languages -/

private theorem ofKind_ne_null (k : Kind) : ofKind k ≠ .null := nofun

/-- The members of the record of a language. -/
def members (l : Language) : List (String × Value) :=
  [("metadata", ofMetadata l.metadata), ("symbols", ofArray ofSymbol l.symbols),
    ("terminal_count", ofNat l.terminalCount), ("fields", ofArray ofString l.fields),
    ("lexer", ofLexer l.lexer), ("table", ofTable l.table), ("extras", ofArray ofKind l.extras),
    ("word", ofOption ofKind l.word), ("start", ofKind l.start)]

private theorem nodup_members (l : Language) : ((members l).map (·.1)).Nodup := by
  have h : ["metadata", "symbols", "terminal_count", "fields", "lexer", "table", "extras",
      "word", "start"].Nodup := by
    decide
  exact h

private theorem roundTrips_language {l : Language} (h : Fits l) :
    RoundTrips ofLanguage language? l := by
  have hmetadata := roundTrips_metadata h.version
  have hsymbols := RoundTrips.array fun s (_ : s ∈ l.symbols) => roundTrips_symbol s
  have hterminals := roundTrips_nat h.terminals
  have hfields := RoundTrips.array fun f (_ : f ∈ l.fields) => roundTrips_string f
  have hlexer := roundTrips_lexer h.lexer
  have htable := roundTrips_table h.table
  have hextras := RoundTrips.array fun k hk => roundTrips_kind (h.extras k hk)
  have hword := RoundTrips.option ofKind_ne_null fun k hk => roundTrips_kind (h.word k hk)
  have hstart := roundTrips_kind h.start
  have hrecord : record? ["metadata", "symbols", "terminal_count", "fields", "lexer", "table",
      "extras", "word", "start"] (ofLanguage l) = some ((members l).map fun m => some m.2) :=
    record?_own rfl (nodup_members l)
  refine ⟨plain_ofMembers ⟨hmetadata.plain, hsymbols.plain, hterminals.plain, hfields.plain,
    hlexer.plain, htable.plain, hextras.plain, hword.plain, hstart.plain⟩, ?_⟩
  have hnames : array? string? (ofArray ofString l.fields) = some l.fields := hfields.back
  simp [language?, hrecord, members, required, Json.optional, hmetadata.back, hsymbols.back,
    hterminals.back, hnames, hlexer.back, htable.back, hextras.back, hword.back, hstart.back]

/-- The header of an artifact is found whatever else there is. -/
theorem header?_ofLanguage {l : Language} (h : l.metadata.formatVersion ≤ max32) :
    header? (ofLanguage l) = some l.metadata := by
  have hrecord : record? ["metadata"] (ofLanguage l) = some [some (ofMetadata l.metadata)] :=
    record?_ofMembers (nodup_members l) ["metadata"]
  simp [header?, hrecord, required, (roundTrips_metadata h).back]

/-- A language is read back from its artifact if the artifact has the current version; of another
version only the number is reported. -/
theorem read_write {l : Language} (h : Fits l) : read (write l) =
    if l.metadata.formatVersion = formatVersion then .ok l
    else .error (.unsupportedVersion l.metadata.formatVersion formatVersion) := by
  have hlanguage := roundTrips_language h
  have hparse : parse? (write l) = some (ofLanguage l) := parse?_compact hlanguage.plain
  unfold read
  rw [hparse]
  simp only [header?_ofLanguage h.version, hlanguage.back]
  by_cases hversion : l.metadata.formatVersion = formatVersion
  · simp [hversion]
  · simp [hversion]

private theorem fits_letter : Fits Compilation.letter.language where
  version := by decide
  terminals := by decide
  lexer := by
    have hdfa : FitsDfa Letter.dfa := by simp [FitsDfa, Letter.dfa, max32]
    refine ⟨fun m hm => ?_, fun r hr => ?_, nofun⟩
    · obtain rfl := Array.mem_singleton.1 hm
      exact hdfa
    · obtain rfl := Array.mem_singleton.1 hr
      exact ⟨by decide, by decide, nofun⟩
  table := by
    have hproductions : ∀ p ∈ Letter.table.productions, p.lhs.id ≤ max16 ∧
        p.fields = #[none] ∧ p.dynamic = 0 := by
      simp [Letter.table, max16]
    refine ⟨?_, ?_, fun p hp => ?_⟩
    · simp [Compilation.letter, Compilation.language, Letter.table, FitsAction, max16, max32]
    · simp [Compilation.letter, Compilation.language, Letter.table, max16, max32]
    · obtain ⟨hlhs, hfields, hdynamic⟩ := hproductions p hp
      refine ⟨hlhs, ?_, by omega⟩
      simp [hfields]
  extras := nofun
  word := nofun
  start := by decide

theorem read_write_letter :
    read (write Compilation.letter.language) = .ok Compilation.letter.language :=
  read_write fits_letter

end Reparse.Artifact
