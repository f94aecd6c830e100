import Reparse.Grammar.Basic

/-! # What validation guarantees -/
namespace Reparse.Grammar

/-- A computation succeeds if both of its parts do. -/
theorem bind_eq_ok {ε α β : Type} {x : Except ε α} {f : α → Except ε β} {b : β} :
    x >>= f = .ok b ↔ ∃ a, x = .ok a ∧ f a = .ok b := by
  cases x with
  | error e => simp [bind, Except.bind]
  | ok a => simp [bind, Except.bind]

/-- The names that later steps look up are there and mean what they should. -/
structure Valid (g : Grammar) : Prop where
  /-- Extras and the word are declared tokens. -/
  tokens : ∀ name ∈ g.draft.extras ++ g.draft.word.toList, name ∈ g.draft.tokens.map (·.name)
  /-- No rule has the name of a token. -/
  distinct : ∀ rule ∈ g.draft.rules, rule.1 ∉ g.draft.tokens.map (·.name)
  start : g.start ∈ g.draft.rules.map (·.1)
  visible : isHiddenName g.start = false

namespace Draft

/-- A set of names holds the listed names and no others. -/
def Holds (names : Names) (list : List String) : Prop :=
  ∀ name, names.contains name = true ↔ name ∈ list

theorem holds_empty : Holds {} [] := by
  intro name
  simp

theorem Holds.insert {names : Names} {list : List String} (h : Holds names list) (name : String) :
    Holds (names.insert name ()) (list ++ [name]) := by
  intro other
  rw [Std.HashMap.contains_insert, Bool.or_eq_true, h other, List.mem_append, List.mem_singleton,
    beq_iff_eq, or_comm, eq_comm]

theorem of_checkToken (d : Draft) (names : Names) (t : TokenDecl) (next : Names)
    (h : d.checkToken names t = .ok next) :
    names.contains t.name = false ∧ next = names.insert t.name () := by
  simp only [checkToken] at h
  split at h
  · contradiction
  · next hnew =>
    split at h
    · contradiction
    · split at h
      · contradiction
      · exact ⟨by simpa using hnew, (Except.ok.inj h).symm⟩

theorem of_checkRuleName (names : Names) (rule : String × Expr) (next : Names)
    (h : checkRuleName names rule = .ok next) :
    names.contains rule.1 = false ∧ next = names.insert rule.1 () := by
  unfold checkRuleName at h
  split at h
  · contradiction
  · next hnew => exact ⟨by simpa using hnew, (Except.ok.inj h).symm⟩

/-- Names that are checked one after another are all different, and different from those before. -/
theorem holds_checks {α : Type} {key : α → String} {check : Names → α → Except Error Names}
    (hcheck : ∀ names x next, check names x = .ok next → names.contains (key x) = false ∧
      next = names.insert (key x) ())
    {xs : List α} {names next : Names} {list : List String} (h : xs.foldlM check names = .ok next)
    (hnames : Holds names list) (hlist : list.Nodup) :
    Holds next (list ++ xs.map key) ∧ (list ++ xs.map key).Nodup := by
  induction xs generalizing names list with
  | nil =>
    obtain rfl : names = next := Except.ok.inj h
    simpa using ⟨hnames, hlist⟩
  | cons x rest ih =>
    rw [List.foldlM_cons] at h
    obtain ⟨names', hfirst, h⟩ := bind_eq_ok.1 h
    obtain ⟨hnew, rfl⟩ := hcheck _ _ _ hfirst
    have hnot : key x ∉ list := by rw [← hnames (key x), hnew]; exact Bool.false_ne_true
    have hsnoc : (list ++ [key x]).Nodup := by
      rw [List.nodup_append]
      refine ⟨hlist, List.pairwise_singleton _ _, fun y hy z hz heq => hnot ?_⟩
      rwa [← List.mem_singleton.1 hz, ← heq]
    simpa using ih h (hnames.insert (key x)) hsnoc

theorem holds_rules (rules : List (String × Expr)) :
    Holds (rules.foldl (fun s r => s.insert r.1 ()) {}) (rules.map (·.1)) := by
  have key (names : Names) (list : List String) (h : Holds names list) :
      Holds (rules.foldl (fun s r => s.insert r.1 ()) names) (list ++ rules.map (·.1)) := by
    induction rules generalizing names list with
    | nil => simpa using h
    | cons r rest ih => simpa using ih _ _ (h.insert r.1)
  exact key {} [] holds_empty

/-- What the checks of a grammar that is in order found. -/
theorem of_validate {d : Draft} {g : Grammar} (h : d.validate = .ok g) : g.draft = d ∧
    (∃ tokens names, d.tokens.foldlM d.checkToken {} = .ok tokens ∧
      d.rules.foldlM checkRuleName tokens = .ok names ∧
      ∀ name ∈ d.extras ++ d.word.toList, tokens.contains name = true) ∧
    g.start ∈ d.rules.map (·.1) ∧ isHiddenName g.start = false := by
  unfold validate at h
  split at h
  · next first body hfirst =>
    obtain ⟨tokens, htokens, h⟩ := bind_eq_ok.1 h
    obtain ⟨names, hnames, h⟩ := bind_eq_ok.1 h
    obtain ⟨-, -, h⟩ := bind_eq_ok.1 h
    simp only at h
    split at h
    · contradiction
    · next hlookup =>
      split at h
      · contradiction
      · split at h
        · contradiction
        · next hstart =>
          split at h
          · contradiction
          · next hvisible =>
            obtain rfl := Except.ok.inj h
            refine ⟨rfl, ⟨tokens, names, htokens, hnames, fun name hname => ?_⟩,
              ?_, by simpa using hvisible⟩
            · have hfound := List.find?_eq_none.1 hlookup name hname
              rwa [Bool.not_eq_true', Bool.not_eq_false] at hfound
            · rwa [Bool.not_eq_true', Bool.not_eq_false, holds_rules] at hstart
  · contradiction

/-- All declared names are different. -/
theorem nodup_of_validate {d : Draft} {g : Grammar} (h : d.validate = .ok g) :
    (g.draft.tokens.map (·.name) ++ g.draft.rules.map (·.1)).Nodup := by
  obtain ⟨rfl, ⟨tokens, names, htokens, hnames, -⟩, -⟩ := of_validate h
  obtain ⟨hholds, hnodup⟩ := holds_checks (of_checkToken _) htokens holds_empty List.nodup_nil
  rw [List.nil_append] at hholds hnodup
  exact (holds_checks of_checkRuleName hnames hholds hnodup).2

theorem valid_of_validate {d : Draft} {g : Grammar} (h : d.validate = .ok g) : g.Valid := by
  have hdistinct := nodup_of_validate h
  obtain ⟨rfl, ⟨tokens, names, htokens, -, hlookup⟩, hstart, hvisible⟩ := of_validate h
  obtain ⟨hholds, -⟩ := holds_checks (of_checkToken _) htokens holds_empty List.nodup_nil
  rw [List.nil_append] at hholds
  refine ⟨fun name hname => (hholds name).1 (hlookup name hname), fun rule hrule hmem => ?_, hstart,
    hvisible⟩
  exact (List.nodup_append.1 hdistinct).2.2 _ hmem _ (List.mem_map_of_mem hrule) rfl

end Draft
end Reparse.Grammar
