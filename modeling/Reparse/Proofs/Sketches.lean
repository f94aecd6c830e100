import Reparse.Proofs.FollowSets
import Reparse.Proofs.Refusals

/-! # Flat grammars without hash tables

The right-hand sides of a flat grammar can be found by unfolding definitions only, if names and
texts are compared by numbers that stand for them. A sketch has these right-hand sides, without
fields and precedences; where there is one, flattening goes well and has the same. -/
namespace Reparse.Grammar
open Data
open Lexer (Pattern)
open Lowering

/-! ## Numbers for texts -/

/-- The bytes of a text as digits from 1 to 256, the first of which is the lowest. -/
def code (text : String) : Nat :=
  (Text.ofString text).toList.foldr (fun b n => n * 256 + b.toNat + 1) 0

theorem bytes_injective : Function.Injective Text.ofString := fun s t h => by
  have hbytes : s.toByteArray = t.toByteArray := ByteArray.ext h
  exact String.toByteArray_inj.1 hbytes

private theorem digits_injective : Function.Injective fun bytes : List UInt8 =>
    bytes.foldr (fun b n => n * 256 + b.toNat + 1) 0 := by
  intro as
  induction as with
  | nil =>
    intro bs h
    cases bs with
    | nil => rfl
    | cons b bs => simp only [List.foldr_nil, List.foldr_cons] at h; omega
  | cons a as ih =>
    intro bs h
    cases bs with
    | nil => simp only [List.foldr_nil, List.foldr_cons] at h; omega
    | cons b bs =>
      simp only [List.foldr_cons] at h
      have ha := a.toNat_lt
      have hb := b.toNat_lt
      obtain rfl : a = b := UInt8.toNat_inj.1 (by omega)
      rw [@ih bs (by simp only; omega)]

theorem code_injective : Function.Injective code := fun _ _ h =>
  bytes_injective (Array.toList_inj.1 (digits_injective h))

/-- Repetitions are left out alike if elements are told apart by a function. -/
private theorem eraseDups_map {α β : Type} [BEq α] [LawfulBEq α] [BEq β] [LawfulBEq β] {f : α → β}
    (hf : Function.Injective f) :
    ∀ xs : List α, (xs.map f).eraseDups = xs.eraseDups.map f
  | [] => by simp
  | x :: rest => by
    have hfilter : (rest.map f).filter (fun y => !y == f x) =
        (rest.filter fun y => !y == x).map f := by
      rw [List.filter_map]
      refine congrArg (List.map f) (List.filter_congr fun y _ => ?_)
      simp [Function.comp, hf.eq_iff]
    rw [List.map_cons, List.eraseDups_cons, List.eraseDups_cons, hfilter,
      eraseDups_map hf, List.map_cons]
termination_by xs => xs.length
decreasing_by exact Nat.lt_succ_of_le (List.length_filter_le _ rest)

/-! ## Numbers for symbols -/

namespace Lowering

/-- Keys with their numbers from `n` on, where some numbers go to none. -/
def table {κ : Type} (n : Nat) : List (Option κ) → List (κ × Nat)
  | [] => []
  | none :: rest => table (n + 1) rest
  | some x :: rest => (x, n) :: table (n + 1) rest

/-- The number of the first key that is the same. -/
def lookup {κ : Type} (same : κ → κ → Bool) (x : κ) : List (κ × Nat) → Option Nat
  | [] => none
  | (y, n) :: rest => if same x y then some n else lookup same x rest

private theorem of_lookup_table {κ : Type} {same : κ → κ → Bool} {x : κ} {n m : Nat}
    {keys : List (Option κ)} (h : lookup same x (table n keys) = some m) :
    ∃ i y, keys[i]? = some (some y) ∧ same x y = true ∧ m = n + i := by
  induction keys generalizing n with
  | nil => contradiction
  | cons key rest ih =>
    have hlater (h : lookup same x (table (n + 1) rest) = some m) :
        ∃ i y, (key :: rest)[i]? = some (some y) ∧ same x y = true ∧ m = n + i := by
      obtain ⟨i, y, hi, hy, rfl⟩ := ih h
      exact ⟨i + 1, y, hi, hy, by omega⟩
    cases key with
    | none => exact hlater h
    | some y =>
      rw [table, lookup] at h
      split at h
      · next hy => exact ⟨0, y, rfl, hy, (Option.some.inj h).symm⟩
      · exact hlater h

private theorem getElem?_number_of_not_mem {κ : Type} [BEq κ] [LawfulBEq κ] [Hashable κ]
    {map : Std.HashMap κ Kind} {n : Nat} {keys : List (Option κ)} {x : κ} (h : some x ∉ keys) :
    (number map n keys)[x]? = map[x]? := by
  induction keys generalizing map n with
  | nil => rfl
  | cons key rest ih =>
    rw [List.mem_cons, not_or] at h
    cases key with
    | none => exact ih h.2
    | some y =>
      rw [number, ih h.2, Std.HashMap.getElem?_insert, if_neg]
      exact fun heq => h.1 (congrArg some (eq_of_beq heq).symm)

/-- Keys that are all different have their own numbers. -/
theorem getElem?_number {κ : Type} [BEq κ] [LawfulBEq κ] [Hashable κ] {map : Std.HashMap κ Kind}
    {n i : Nat} {keys : List (Option κ)} {x : κ} (hkeys : (keys.filterMap id).Nodup)
    (hi : keys[i]? = some (some x)) :
    (number map n keys)[x]? = some (.ofNat (n + i)) := by
  induction keys generalizing map n i with
  | nil => contradiction
  | cons key rest ih =>
    cases i with
    | zero =>
      obtain rfl := Option.some.inj hi
      have hnot : some x ∉ rest := fun hx =>
        (List.nodup_cons (l := rest.filterMap id)).1 hkeys |>.1 (List.mem_filterMap.2 ⟨_, hx, rfl⟩)
      rw [number, getElem?_number_of_not_mem hnot, Std.HashMap.getElem?_insert_self, Nat.add_zero]
    | succ i =>
      have hstep : n + (i + 1) = n + 1 + i := by omega
      cases key with
      | none => rw [number, ih hkeys hi, hstep]
      | some y => rw [number, ih ((List.nodup_cons (l := rest.filterMap id)).1 hkeys).2 hi, hstep]

private theorem number_append {κ : Type} [BEq κ] [Hashable κ] (map : Std.HashMap κ Kind) (n : Nat)
    (xs ys : List (Option κ)) :
    number map n (xs ++ ys) = number (number map n xs) (n + xs.length) ys := by
  induction xs generalizing map n with
  | nil => rfl
  | cons x xs ih =>
    cases x with
    | none =>
      rw [List.cons_append, number, ih, number, List.length_cons, Nat.add_right_comm, Nat.add_assoc]
    | some x =>
      rw [List.cons_append, number, ih, number, List.length_cons, Nat.add_right_comm, Nat.add_assoc]

/-- The symbols that names, texts and unnamed patterns stand for, where names and texts are given by
their codes. -/
structure Numbers where
  names : List (Nat × Nat)
  literals : List (Nat × Nat)
  patterns : List (Pattern × Nat)

def samePattern (p q : Pattern) : Bool := decide (p = q)

/-- The numbers are those of a scope. -/
structure Numbers.Agree (t : Numbers) (scope : Scope) : Prop where
  names : ∀ x n, lookup Nat.beq (code x) t.names = some n → scope.names[x]? = some ⟨n⟩
  literals : ∀ x n, lookup Nat.beq (code x) t.literals = some n → scope.literals[x]? = some ⟨n⟩
  patterns : ∀ x n, lookup samePattern x t.patterns = some n → scope.patterns[x]? = some ⟨n⟩

/-! ## Right-hand sides -/

/-- What was lowered so far: the next symbol, and the productions, the last one first. -/
structure Drawing where
  next : Nat
  rows : List (Nat × List Nat)

/-- Whether no number stands twice. -/
def noRepeat : List Nat → Bool
  | [] => true
  | n :: rest => rest.all (fun m => !Nat.beq n m) && noRepeat rest

/-- A number by which right-hand sides are compared. -/
def key (symbols : List Nat) : Nat := symbols.foldr (fun x n => n * 65536 + x + 1) 0

/-- Adds the alternatives of a symbol, if no two of them are the same. -/
def Drawing.add (lhs : Nat) (alts : List (List Nat)) (d : Drawing) : Option Drawing :=
  if noRepeat (alts.map key)
    then some { d with rows := (alts.map (lhs, ·)).reverse ++ d.rows } else none

/-- Ends the repetition of some alternatives as the symbol `aux`. -/
def Drawing.endRepeat (aux : Nat) (alts : List (List Nat)) (d : Drawing) :
    Option (List (List Nat) × Drawing) :=
  let nonempty := alts.filter (!·.isEmpty)
  (d.add aux (nonempty.map (aux :: ·) ++ nonempty)).map fun d =>
    ([aux] :: if alts.any (·.isEmpty) then [[]] else [], d)

/-- One alternative with one symbol. -/
def single (d : Drawing) (n : Nat) : Option (List (List Nat) × Drawing) :=
  materialize n fun n => some ([[n]], d)

mutual
/-- The alternatives of an expression as symbols. -/
def sketch (t : Numbers) : Expr → Drawing → Option (List (List Nat) × Drawing)
  | .blank, d => some ([[]], d)
  | .text x, d => (lookup Nat.beq (code x) t.literals).bind (single d)
  | .symbol x, d => (lookup Nat.beq (code x) t.names).bind (single d)
  | .pattern p, d => (lookup samePattern p t.patterns).bind (single d)
  | .seq items, d => sketchSeq t items [[]] d
  | .choice items, d => sketchChoice t items d
  | .optional body, d => (sketch t body d).map fun r => (r.1 ++ [[]], r.2)
  | .repeated1 body, d => materialize d.next fun aux =>
    if aux ≤ maxId then (sketch t body { d with next := aux + 1 }).bind fun r =>
      r.2.endRepeat aux r.1 else none
  | .repeated body, d => materialize d.next fun aux =>
    if aux ≤ maxId then
      (sketch t body { d with next := aux + 1 }).bind fun r => (r.2.endRepeat aux r.1).map fun r =>
        (if r.1.any (·.isEmpty) then r.1 else r.1 ++ [[]], r.2)
    else none
  | .field _ body, d => sketch t body d
  | .prec _ body, d => sketch t body d
  | .dynamic _ body, d => sketch t body d

def sketchSeq (t : Numbers) :
    List Expr → List (List Nat) → Drawing → Option (List (List Nat) × Drawing)
  | [], acc, d => some (acc, d)
  | e :: rest, acc, d => (sketch t e d).bind fun r =>
    if acc.length * r.1.length ≤ maxAlternatives then
      materialize (acc.flatMap fun a => r.1.map (a ++ ·)) fun acc => sketchSeq t rest acc r.2
    else none

def sketchChoice (t : Numbers) : List Expr → Drawing → Option (List (List Nat) × Drawing)
  | [], d => some ([], d)
  | e :: rest, d => (sketch t e d).bind fun r => (sketchChoice t rest r.2).map fun others =>
      (r.1 ++ others.1, others.2)
end

/-- The productions of rules, which are numbered from `n` on. -/
def sketchRules (t : Numbers) : (n : Nat) → List (String × Expr) → Drawing → Option Drawing
  | _, [], d => some d
  | n, rule :: rest, d => (sketch t rule.2 d).bind fun r =>
    if r.1.length ≤ maxAlternatives then
      (r.2.add n r.1).bind fun d => materialize (n + 1) fun n => sketchRules t n rest d
    else none

/-! ## Sketches tell what lowering does -/

theorem nodup_of_noRepeat {xs : List Nat} (h : noRepeat xs = true) : xs.Nodup := by
  induction xs with
  | nil => exact .nil
  | cons x rest ih =>
    simp only [noRepeat, Bool.and_eq_true, List.all_eq_true, Bool.not_eq_true'] at h
    refine List.nodup_cons.2 ⟨fun hx => ?_, ih h.2⟩
    have hself := h.1 x hx
    rw [Nat.beq_refl] at hself
    contradiction

/-- The symbols of alternatives. -/
def shapes (alts : List Alternative) : List (List Nat) := alts.map fun a => Table.ids a.steps

/-- The drawing has the productions of the state, and symbols that were added since are hidden. -/
structure Drawn (base : Array SymbolInfo) (st : State) (d : Drawing) : Prop where
  next : st.symbols.size = d.next
  rows : d.rows = (st.productions.toList.map fun p => (p.lhs.id, Table.ids p.steps)).reverse
  hidden : ∃ more, st.symbols = base ++ more ∧ ∀ info ∈ more, info.visible = false

variable {base : Array SymbolInfo} {st : State} {d d' : Drawing} {alts : List Alternative}
  {lhs : Kind}

private theorem toList_foldl_addProduction (st : State) (lhs : Kind) (alts : List Alternative) :
    (alts.foldl (fun st a => st.addProduction (a.toProduction lhs)) st).symbols = st.symbols ∧
      (alts.foldl (fun st a => st.addProduction (a.toProduction lhs)) st).productions.toList =
        st.productions.toList ++ alts.map (·.toProduction lhs) := by
  induction alts generalizing st with
  | nil => simp
  | cons a rest ih =>
    obtain ⟨hsymbols, hproductions⟩ := ih (st.addProduction (a.toProduction lhs))
    exact ⟨hsymbols, hproductions.trans (by simp [State.addProduction])⟩

private theorem Drawn.add (h : Drawn base st d) (hadd : d.add lhs.id (shapes alts) = some d') :
    Drawn base (st.addAlternatives lhs alts) d' := by
  unfold Drawing.add at hadd
  split at hadd
  · next hkeys =>
    obtain rfl := Option.some.inj hadd
    have hnodup : (alts.map (·.steps)).Nodup := by
      have hkeys := nodup_of_noRepeat hkeys
      rw [shapes, List.map_map] at hkeys
      refine List.Nodup.of_map (fun steps => key (Table.ids steps)) ?_
      rwa [List.map_map]
    have hdistinct : Alternative.distinct {} alts = alts :=
      distinct_of_nodup hnodup fun a _ => by simp
    obtain ⟨hsymbols, hproductions⟩ := toList_foldl_addProduction st lhs alts
    unfold State.addAlternatives
    rw [hdistinct]
    refine ⟨by rw [hsymbols]; exact h.next, ?_, by rw [hsymbols]; exact h.hidden⟩
    rw [hproductions, List.map_append, List.reverse_append, ← h.rows, shapes,
      List.map_map, List.map_map]
    rfl
  · contradiction

/-- The symbol of a repetition. -/
private theorem Drawn.beginRepeat (h : Drawn base st d) (hle : d.next ≤ maxId) :
    st.beginRepeat.1.id = d.next ∧ Drawn base st.beginRepeat.2 { d with next := d.next + 1 } := by
  refine ⟨?_, ?_, h.rows, ?_⟩
  · rw [State.beginRepeat, Kind.ofNat, h.next]
    exact Nat.min_eq_left hle
  · rw [State.beginRepeat, Array.size_push, h.next]
  · obtain ⟨more, hmore, hhidden⟩ := h.hidden
    refine ⟨more.push ⟨s!"{st.ruleName}_repeat{st.repeats + 1}", false, false, true⟩, ?_,
      fun info hinfo => ?_⟩
    · rw [State.beginRepeat, hmore, Array.append_push]
    · rcases Array.mem_push.1 hinfo with hinfo | rfl
      · exact hhidden info hinfo
      · rfl

private theorem any_isEmpty_shapes (alts : List Alternative) :
    (shapes alts).any (·.isEmpty) = alts.any (·.steps.isEmpty) := by
  rw [shapes, List.any_map]
  congr 1
  funext a
  simp [Table.ids]

private theorem Drawn.endRepeat {c : Context} {aux : Kind} {r : List (List Nat) × Drawing}
    (h : Drawn base st d) (hend : d.endRepeat aux.id (shapes alts) = some r) :
    shapes (st.endRepeat aux c alts).1 = r.1 ∧ Drawn base (st.endRepeat aux c alts).2 r.2 := by
  obtain ⟨d', hadd, rfl⟩ := Option.map_eq_some_iff.1 hend
  have hnonempty : (shapes alts).filter (!·.isEmpty) = shapes (alts.filter (!·.steps.isEmpty)) := by
    rw [shapes, shapes, List.filter_map]
    congr 1
    refine List.filter_congr fun a _ => ?_
    simp [Table.ids]
  constructor
  · rw [any_isEmpty_shapes]
    unfold State.endRepeat
    simp only
    split <;> rfl
  · refine h.add ?_
    rw [← hadd, hnonempty, shapes, List.map_append, List.map_map, shapes, List.map_map]
    rfl

/-- Lowering goes well and has the symbols of the sketch. -/
def Follows (base : Array SymbolInfo) (r : Except Error (List Alternative × State))
    (s : List (List Nat) × Drawing) :
    Prop := ∃ alts st, r = .ok (alts, st) ∧ shapes alts = s.1 ∧ Drawn base st s.2

private theorem follows_single {c : Context} {k : Kind} {n : Nat} {s : List (List Nat) × Drawing}
    (h : Drawn base st d) (hk : k = ⟨n⟩) (hs : single d n = some s) :
    Follows base (.ok ([.single k c], st)) s := by
  rw [single, Materialize.materialize_eq, Option.some.injEq] at hs
  rw [← hs, hk]
  exact ⟨_, _, rfl, rfl, h⟩

private theorem shapes_append (alts others : List Alternative) :
    shapes (alts ++ others) = shapes alts ++ shapes others :=
  List.map_append

/-- Every alternative followed by every other one. -/
private theorem shapes_product (acc alts : List Alternative) :
    shapes (acc.flatMap fun a => alts.map a.append) = (shapes acc).flatMap fun a =>
      (shapes alts).map (a ++ ·) := by
  simp only [shapes, List.map_flatMap, List.flatMap_map, List.map_map]
  congr 1
  funext a
  refine List.map_congr_left fun b _ => ?_
  simp [Alternative.append, Table.ids]

private theorem length_shapes (alts : List Alternative) : (shapes alts).length = alts.length :=
  List.length_map _

variable {t : Numbers} {scope : Scope}

mutual
theorem follows_lower (hscope : t.Agree scope) :
    ∀ (e : Expr) (c : Context) (st : State) (d : Drawing) (s : List (List Nat) × Drawing),
    Drawn base st d → sketch t e d = some s → Follows base (lower scope e c st) s
  | .blank, c, st, d, s, hst, hs => by
    rw [sketch, Option.some.injEq] at hs
    rw [← hs, lower]
    exact ⟨_, _, rfl, rfl, hst⟩
  | .text x, c, st, d, s, hst, hs => by
    rw [sketch] at hs
    obtain ⟨n, hn, hs⟩ := Option.bind_eq_some_iff.1 hs
    rw [lower]
    exact follows_single hst (by rw [hscope.literals x n hn]; rfl) hs
  | .symbol x, c, st, d, s, hst, hs => by
    rw [sketch] at hs
    obtain ⟨n, hn, hs⟩ := Option.bind_eq_some_iff.1 hs
    have hlookup : scope.lookup x = .ok ⟨n⟩ := by rw [Scope.lookup, hscope.names x n hn]
    rw [lower, hlookup]
    exact follows_single hst rfl hs
  | .pattern x, c, st, d, s, hst, hs => by
    rw [sketch] at hs
    obtain ⟨n, hn, hs⟩ := Option.bind_eq_some_iff.1 hs
    rw [lower]
    exact follows_single hst (by rw [hscope.patterns x n hn]; rfl) hs
  | .seq items, c, st, d, s, hst, hs => by
    rw [sketch] at hs
    rw [lower]
    exact follows_lowerSeq hscope items c [.empty c] st d [[]] s rfl hst hs
  | .choice items, c, st, d, s, hst, hs => by
    rw [sketch] at hs
    rw [lower]
    exact follows_lowerChoice hscope items c st d s hst hs
  | .optional body, c, st, d, s, hst, hs => by
    rw [sketch] at hs
    obtain ⟨r, hr, rfl⟩ := Option.map_eq_some_iff.1 hs
    obtain ⟨alts, st', hlower, hshapes, hst'⟩ := follows_lower hscope body c st d r hst hr
    rw [lower, hlower]
    exact ⟨_, _, rfl, by rw [shapes_append, hshapes]; rfl, hst'⟩
  | .repeated1 body, c, st, d, s, hst, hs => by
    rw [sketch, Materialize.materialize_eq] at hs
    split at hs
    · next hle =>
      obtain ⟨r, hr, hs⟩ := Option.bind_eq_some_iff.1 hs
      obtain ⟨haux, hbegin⟩ := hst.beginRepeat hle
      obtain ⟨alts, st', hlower, hshapes, hst'⟩ := follows_lower hscope body c _ _ r hbegin hr
      rw [← hshapes, ← haux] at hs
      obtain ⟨hwhole, hend⟩ := hst'.endRepeat (c := c) hs
      rw [lower]
      simp only [hlower]
      exact ⟨_, _, rfl, hwhole, hend⟩
    · contradiction
  | .repeated body, c, st, d, s, hst, hs => by
    rw [sketch, Materialize.materialize_eq] at hs
    split at hs
    · next hle =>
      obtain ⟨r, hr, hs⟩ := Option.bind_eq_some_iff.1 hs
      obtain ⟨r', hr', rfl⟩ := Option.map_eq_some_iff.1 hs
      obtain ⟨haux, hbegin⟩ := hst.beginRepeat hle
      obtain ⟨alts, st', hlower, hshapes, hst'⟩ := follows_lower hscope body c _ _ r hbegin hr
      rw [← hshapes, ← haux] at hr'
      obtain ⟨hwhole, hend⟩ := hst'.endRepeat (c := c) hr'
      rw [lower]
      simp only [hlower]
      refine ⟨_, _, rfl, ?_, hend⟩
      rw [← hwhole, any_isEmpty_shapes]
      split
      · rfl
      · exact shapes_append _ _
    · contradiction
  | .field name body, c, st, d, s, hst, hs => by
    rw [sketch] at hs
    rw [lower]
    exact follows_lower hscope body _ st d s hst hs
  | .prec p body, c, st, d, s, hst, hs => by
    rw [sketch] at hs
    rw [lower]
    exact follows_lower hscope body _ st d s hst hs
  | .dynamic value body, c, st, d, s, hst, hs => by
    rw [sketch] at hs
    rw [lower]
    exact follows_lower hscope body _ st d s hst hs

private theorem follows_lowerSeq (hscope : t.Agree scope) :
    ∀ (items : List Expr) (c : Context) (acc : List Alternative) (st : State) (d : Drawing)
    (shape : List (List Nat)) (s : List (List Nat) × Drawing),
      shapes acc = shape → Drawn base st d →
    sketchSeq t items shape d = some s → Follows base (lowerSeq scope items c acc st) s
  | [], c, acc, st, d, shape, s, hacc, hst, hs => by
    rw [sketchSeq, Option.some.injEq] at hs
    rw [← hs, lowerSeq]
    exact ⟨_, _, rfl, hacc, hst⟩
  | e :: rest, c, acc, st, d, shape, s, hacc, hst, hs => by
    rw [sketchSeq] at hs
    obtain ⟨r, hr, hs⟩ := Option.bind_eq_some_iff.1 hs
    obtain ⟨alts, st', hlower, hshapes, hst'⟩ := follows_lower hscope e c st d r hst hr
    rw [← hacc, ← hshapes, length_shapes, length_shapes, Materialize.materialize_eq,
      ← shapes_product] at hs
    split at hs
    · next hle =>
      rw [lowerSeq, hlower]
      change Follows base (if acc.length * alts.length > maxAlternatives then throw st'.tooMany
        else lowerSeq scope rest c (acc.flatMap fun a => alts.map a.append) st') s
      rw [if_neg (Nat.not_lt.2 hle)]
      exact follows_lowerSeq hscope rest c _ st' r.2 _ s rfl hst' hs
    · contradiction

private theorem follows_lowerChoice (hscope : t.Agree scope) :
    ∀ (items : List Expr) (c : Context) (st : State) (d : Drawing)
    (s : List (List Nat) × Drawing), Drawn base st d → sketchChoice t items d = some s →
    Follows base (lowerChoice scope items c st) s
  | [], c, st, d, s, hst, hs => by
    rw [sketchChoice, Option.some.injEq] at hs
    rw [← hs, lowerChoice]
    exact ⟨_, _, rfl, rfl, hst⟩
  | e :: rest, c, st, d, s, hst, hs => by
    rw [sketchChoice] at hs
    obtain ⟨r, hr, hs⟩ := Option.bind_eq_some_iff.1 hs
    obtain ⟨others, hothers, rfl⟩ := Option.map_eq_some_iff.1 hs
    obtain ⟨alts, st', hlower, hshapes, hst'⟩ := follows_lower hscope e c st d r hst hr
    obtain ⟨alts', st'', hlower', hshapes', hst''⟩ :=
      follows_lowerChoice hscope rest c st' r.2 others hst' hothers
    rw [lowerChoice, hlower]
    change Follows base (lowerChoice scope rest c st' >>= fun p => .ok (alts ++ p.1, p.2)) _
    rw [hlower']
    exact ⟨_, _, rfl, by rw [shapes_append, hshapes, hshapes'], hst''⟩
end

private theorem follows_lowerRule (hscope : t.Agree scope) {rule : (String × Expr) × Kind}
    {s : List (List Nat) × Drawing} (hst : Drawn base st d) (hs : sketch t rule.1.2 d = some s)
    (hle : s.1.length ≤ maxAlternatives) (hadd : s.2.add rule.2.id s.1 = some d') :
    ∃ st', lowerRule scope st rule = .ok st' ∧ Drawn base st' d' := by
  obtain ⟨alts, st', hlower, hshapes, hst'⟩ :=
    follows_lower hscope rule.1.2 {} { st with rule := rule.2, repeats := 0 } d s
      ⟨hst.next, hst.rows, hst.hidden⟩ hs
  rw [← hshapes] at hle hadd
  rw [length_shapes] at hle
  refine ⟨_, ?_, hst'.add hadd⟩
  unfold lowerRule
  rw [hlower]
  change (if alts.length > maxAlternatives
      then (.error (.tooManyAlternatives rule.1.1 maxAlternatives) : Except Error State)
    else .ok (st'.addAlternatives rule.2 alts)) = _
  rw [if_neg (Nat.not_lt.2 hle)]

/-- Rules that are numbered from `n` on are lowered. -/
private theorem exists_foldlM_lowerRule (hscope : t.Agree scope) {n : Nat}
    {rules : List (String × Expr)} (hn : n + rules.length ≤ maxId + 1) (hst : Drawn base st d)
    (hs : sketchRules t n rules d = some d') :
    ∃ st', (rules.zip ((List.range' n rules.length).map Kind.ofNat)).foldlM (lowerRule scope) st =
      .ok st' ∧
      Drawn base st' d' := by
  induction rules generalizing n st d with
  | nil =>
    rw [sketchRules, Option.some.injEq] at hs
    exact ⟨st, rfl, hs ▸ hst⟩
  | cons rule rest ih =>
    rw [sketchRules] at hs
    obtain ⟨s, hsketch, hs⟩ := Option.bind_eq_some_iff.1 hs
    split at hs
    · next hle =>
      obtain ⟨d₁, hadd, hs⟩ := Option.bind_eq_some_iff.1 hs
      rw [List.length_cons] at hn
      have hid : (Kind.ofNat n).id = n := Nat.min_eq_left (by omega)
      rw [← hid] at hadd
      have hdrawn : sketch t (rule, Kind.ofNat n).1.2 d = some s := hsketch
      obtain ⟨st₁, hrule, hst₁⟩ := follows_lowerRule hscope hst hdrawn hle hadd
      rw [Materialize.materialize_eq] at hs
      obtain ⟨st', hrest, hst'⟩ := ih (by omega) hst₁ hs
      refine ⟨st', ?_, hst'⟩
      rw [List.length_cons, List.range'_succ, List.map_cons, List.zip_cons_cons,
        List.foldlM_cons, hrule]
      exact hrest
    · contradiction

end Lowering

/-! ## Sketches of whole grammars -/

instance : Materialize Pattern where
  materialize p k := k p
  materialize_eq _ _ := rfl

/-- A flat grammar without fields and precedences. -/
structure Outline where
  terminalCount : Nat
  /-- How many symbols there are. -/
  size : Nat
  rows : List Table.Spot

/-- The codes of literals that are no declared tokens. -/
def literalCodes (g : Grammar) : List Nat :=
  materialize ((g.draft.tokens.filter (·.isLiteral)).map fun t => code t.name) fun declared =>
    materialize (((g.draft.rules.flatMap fun r => r.2.parts).filterMap Expr.text?).map code)
      fun texts =>
      (texts.filter (· ∉ declared)).eraseDups

/-- The patterns without a name. -/
def unnamedPatterns (g : Grammar) : List Pattern :=
  ((g.draft.rules.flatMap fun r => r.2.parts).filterMap Expr.pattern?).eraseDups

/-- The numbers of declared tokens and rules, in front of which there are so many other
terminals. -/
def nameTable (g : Grammar) (others : Nat) : List (Nat × Nat) :=
  table (2 + others) ((g.draft.tokens.map (·.name) ++ g.draft.rules.map (·.1)).map fun name =>
    some (code name))

/-- The numbers of literals, some of which are declared tokens. -/
def literalTable (g : Grammar) (literals : List Nat) (others : Nat) : List (Nat × Nat) :=
  table 2 (literals.map some) ++
    table (2 + others) (g.draft.tokens.map fun t =>
    if t.isLiteral then some (code t.name) else none)

/-- The outline of a grammar with so many terminals, the start symbol and the accepting symbol. -/
def outlineWith (t : Numbers) (count start accept : Nat) (rules : List (String × Expr)) :
    Option Outline :=
  (sketchRules t count rules ⟨accept + 1, [(accept, [start])]⟩).bind fun d =>
    if d.next ≤ maxId then some
      ⟨count, d.next, d.rows.reverse.zipIdx.map fun (row, q) => ⟨q, row.1, row.2⟩⟩ else none

/-- Flattening without fields and precedences. -/
def outline (g : Grammar) : Option Outline :=
  materialize (literalCodes g) fun literals => materialize (unnamedPatterns g) fun patterns =>
    materialize (literals.length + patterns.length) fun others =>
      materialize (2 + others + g.draft.tokens.length) fun count =>
        materialize (nameTable g others) fun names =>
          materialize (literalTable g literals others) fun texts =>
          (lookup Nat.beq (code g.start) names).bind fun start =>
            materialize (count + g.draft.rules.length) fun accept =>
            if accept ≤ maxId then
              outlineWith ⟨names, texts, table (2 + literals.length) (patterns.map some)⟩ count
                start accept g.draft.rules
            else none


/-! ## Sketches of whole grammars tell what flattening does -/

private theorem table_append {κ : Type} (n : Nat) (xs ys : List (Option κ)) :
    table n (xs ++ ys) = table n xs ++ table (n + xs.length) ys := by
  induction xs generalizing n with
  | nil => rfl
  | cons x rest ih =>
    have hstep : n + 1 + rest.length = n + (rest.length + 1) := by omega
    cases x with
    | none => rw [List.cons_append, table, table, ih, List.length_cons, hstep]
    | some x => rw [List.cons_append, table, table, ih, List.length_cons, hstep, List.cons_append]

private theorem table_replicate_none {κ : Type} (n count : Nat) :
    table n (List.replicate count (none : Option κ)) = [] := by
  induction count generalizing n with
  | zero => rfl
  | succ count ih => rw [List.replicate_succ, table, ih]

/-- Keys that are found in a table have the same numbers in a scope. -/
private theorem getElem?_number_of_lookup {κ α : Type} [BEq κ] [LawfulBEq κ] [Hashable κ]
    {keys : List (Option κ)} {same : α → α → Bool} {f : κ → α}
    (hsame : ∀ x y, same (f x) (f y) = true → x = y) (hkeys : (keys.filterMap id).Nodup)
    (hle : 2 + keys.length ≤ maxId + 1) {x : κ} {n : Nat}
    (h : lookup same (f x) (table 2 (keys.map (Option.map f))) = some n) :
    (number {} 2 keys)[x]? = some ⟨n⟩ := by
  obtain ⟨i, z, hi, hz, rfl⟩ := of_lookup_table h
  rw [List.getElem?_map, Option.map_eq_some_iff] at hi
  obtain ⟨key, hi, hkey⟩ := hi
  obtain ⟨y, rfl, rfl⟩ := Option.map_eq_some_iff.1 hkey
  obtain rfl := hsame x y hz
  have hlt := (List.getElem?_eq_some_iff.1 hi).1
  rw [getElem?_number hkeys hi, Kind.ofNat, Nat.min_eq_left (by omega)]

theorem literalCodes_eq (g : Grammar) :
    literalCodes g = (((g.draft.rules.flatMap fun r => r.2.parts).filterMap Expr.text?).filter
      (· ∉ (g.draft.tokens.filter (·.isLiteral)).map (·.name))).eraseDups.map code := by
  have hdeclared : (g.draft.tokens.filter (·.isLiteral)).map (fun t => code t.name) =
      ((g.draft.tokens.filter (·.isLiteral)).map (·.name)).map code := by
    rw [List.map_map]
    rfl
  rw [literalCodes, Materialize.materialize_eq, Materialize.materialize_eq,
    hdeclared, List.filter_map, eraseDups_map code_injective]
  refine congrArg (fun texts => texts.eraseDups.map code) (List.filter_congr fun x _ => ?_)
  simp only [Function.comp_apply, List.mem_map, code_injective.eq_iff, exists_eq_right]

section
variable (g : Grammar)

private theorem map_name_terminals :
    (g.terminals.map Terminal.name? ++ g.draft.rules.map fun rule => some rule.1) =
      List.replicate ((literalCodes g).length + (unnamedPatterns g).length) none ++
      (g.draft.tokens.map (·.name) ++ g.draft.rules.map (·.1)).map some := by
  have hcodes := congrArg List.length (literalCodes_eq g)
  rw [List.length_map] at hcodes
  simp only [terminals, unnamedPatterns, hcodes, List.map_append, List.map_map, ← List.append_assoc]
  simp [Function.comp_def, Terminal.name?, List.map_const', List.replicate_append_replicate]

theorem length_terminals : g.terminals.length =
    (literalCodes g).length + (unnamedPatterns g).length + g.draft.tokens.length := by
  have h := congrArg List.length (map_name_terminals g)
  simp only [List.length_append, List.length_map, List.length_replicate] at h
  omega

private theorem map_text_terminals : (g.terminals.map Terminal.text?).map (Option.map code) =
    (literalCodes g).map some ++ (List.replicate (unnamedPatterns g).length none ++
      g.draft.tokens.map fun t => if t.isLiteral then some (code t.name) else none) := by
  rw [literalCodes_eq]
  simp only [terminals, unnamedPatterns, List.map_append, List.map_map, List.append_assoc]
  congr 1
  congr 1
  · simp [Function.comp_def, Terminal.text?, List.map_const']
  · refine List.map_congr_left fun t _ => ?_
    simp only [Function.comp_apply, Terminal.text?]
    split <;> rfl

theorem map_pattern_terminals : g.terminals.map Terminal.pattern? =
    List.replicate (literalCodes g).length none ++ ((unnamedPatterns g).map some ++
      List.replicate g.draft.tokens.length none) := by
  have hcodes := congrArg List.length (literalCodes_eq g)
  rw [List.length_map] at hcodes
  have hpatterns (xs : List Pattern) : xs.zipIdx.map (fun p => some p.1) = xs.map some := by
    change xs.zipIdx.map (some ∘ Prod.fst) = _
    rw [← List.map_map, List.zipIdx_map_fst]
  simp only [terminals, unnamedPatterns, hcodes, List.map_append, List.map_map, List.append_assoc]
  simp [Function.comp_def, Terminal.pattern?, List.map_const', hpatterns]
end

theorem eq_of_beq_code {x y : String} (h : Nat.beq (code x) (code y) = true) : x = y :=
  code_injective (Nat.eq_of_beq_eq_true h)

/-- Names stand for terminals and, behind these, for rules. -/
theorem names_bodyScope (g : Grammar) : (bodyScope g).names =
    number {} 2 (g.terminals.map Terminal.name? ++ g.draft.rules.map fun rule => some rule.1) := by
  have hnames :=
    (foldl_addRuleName g.draft.rules (terminalsOf g).scope (terminalsOf g).symbols #[]).1
  rw [terminalsOf_eq, Terminals.names_foldl_add, Terminals.size_foldl_add,
    ← terminalsOf_eq] at hnames
  rw [number_append, List.length_map]
  exact hnames

private theorem nodup_names {d : Draft} {g : Grammar} (hvalid : d.validate = .ok g) :
    ((g.terminals.map Terminal.name? ++ g.draft.rules.map fun rule => some rule.1).filterMap
      id).Nodup := by
  obtain ⟨literals, patterns, hterminals, -⟩ := g.terminals_eq_inOrder
  have hnames : g.terminals.filterMap Terminal.name? = g.draft.tokens.map (·.name) := by
    rw [hterminals, Terminal.filterMap_name]
  have hrules : g.draft.rules.filterMap (fun rule => some rule.1) = g.draft.rules.map (·.1) :=
    congrFun List.filterMap_eq_map' _
  rw [List.filterMap_append, List.filterMap_map, List.filterMap_map]
  change (g.terminals.filterMap Terminal.name? ++ g.draft.rules.filterMap fun rule =>
      some rule.1).Nodup
  rw [hnames, hrules]
  exact Draft.nodup_of_validate hvalid

/-- The name of a declared token stands for its terminal. -/
theorem getElem?_names_token {d : Draft} {g : Grammar} (hvalid : d.validate = .ok g) {i : Nat}
    {decl : TokenDecl} (hi : g.terminals[i]? = some (.token decl)) :
    (bodyScope g).names[decl.name]? = some (.ofNat (2 + i)) := by
  have hkey : (g.terminals.map Terminal.name? ++ g.draft.rules.map fun rule => some rule.1)[i]? =
      some (some decl.name) := by
    rw [List.getElem?_append_left
      (by rw [List.length_map]; exact (List.getElem?_eq_some_iff.1 hi).1), List.getElem?_map, hi]
    rfl
  rw [names_bodyScope, getElem?_number (nodup_names hvalid) hkey]

/-- The tables of a grammar in order are those of its scope. -/
private theorem agree_bodyScope {d : Draft} {g : Grammar} (hvalid : d.validate = .ok g)
    (hle : 2 + g.terminals.length + g.draft.rules.length ≤ maxId + 1) :
    Numbers.Agree ⟨nameTable g ((literalCodes g).length + (unnamedPatterns g).length),
      literalTable g (literalCodes g) ((literalCodes g).length + (unnamedPatterns g).length),
      table (2 + (literalCodes g).length) ((unnamedPatterns g).map some)⟩ (bodyScope g) := by
  have hnamed := named_foldl g.draft.rules (terminalsOf g).scope (terminalsOf g).symbols #[]
  have hdistinct := distinct_terminals hvalid
  constructor
  case names =>
    intro x n h
    have htable : nameTable g ((literalCodes g).length + (unnamedPatterns g).length) =
        table 2 ((g.terminals.map Terminal.name? ++ g.draft.rules.map fun rule => some rule.1).map
        (Option.map code)) := by
      rw [map_name_terminals, List.map_append, List.map_replicate, table_append, Option.map_none,
        table_replicate_none, List.length_replicate, List.nil_append, List.map_map]
      rfl
    rw [names_bodyScope]
    refine getElem?_number_of_lookup (fun _ _ => eq_of_beq_code) ?_ ?_ (htable ▸ h)
    · exact nodup_names hvalid
    · rw [List.length_append, List.length_map, List.length_map]
      omega
  case literals =>
    intro x n h
    have hscope : (bodyScope g).literals = number {} 2 (g.terminals.map Terminal.text?) := by
      refine hnamed.literals.trans ?_
      rw [terminalsOf_eq, Terminals.literals_foldl_add]
      rfl
    have htable : literalTable g (literalCodes g)
        ((literalCodes g).length + (unnamedPatterns g).length) =
          table 2 ((g.terminals.map Terminal.text?).map (Option.map code)) := by
      rw [map_text_terminals, table_append, table_append, table_replicate_none, List.length_map,
        List.length_replicate, List.nil_append, Nat.add_assoc]
      rfl
    rw [hscope]
    refine getElem?_number_of_lookup (fun _ _ => eq_of_beq_code) ?_ ?_ (htable ▸ h)
    · rw [List.filterMap_map]
      exact hdistinct.texts
    · rw [List.length_map]
      omega
  case patterns =>
    intro x n h
    have hscope : (bodyScope g).patterns = number {} 2 (g.terminals.map Terminal.pattern?) := by
      refine hnamed.patterns.trans ?_
      rw [terminalsOf_eq, Terminals.patterns_foldl_add]
      rfl
    have htable : table (2 + (literalCodes g).length) ((unnamedPatterns g).map some) =
        table 2 ((g.terminals.map Terminal.pattern?).map (Option.map id)) := by
      rw [Option.map_id, List.map_id, map_pattern_terminals, table_append, table_append,
        table_replicate_none, table_replicate_none, List.length_replicate,
        List.nil_append, List.append_nil]
    rw [hscope]
    refine getElem?_number_of_lookup (f := id) (fun p q hpq => of_decide_eq_true hpq)
      ?_ ?_ (htable ▸ h)
    · rw [List.filterMap_map]
      exact hdistinct.patterns
    · rw [List.length_map]
      omega

/-- A flat grammar has the symbols and productions to which its rules were lowered. -/
theorem lowerRules_of_flatten {g : Grammar} {flat : Flat} (h : flatten g = .ok flat) :
    (bodyScope g).lookup g.start = .ok flat.start ∧ ∃ st, lowerRules g flat.start = .ok st ∧
      flat.symbols = st.symbols ∧ flat.productions = st.productions ∧
        flat.terminalCount = (terminalsOf g).symbols.size := by
  rw [flatten_eq] at h
  obtain ⟨start, hstart, h⟩ := bind_eq_ok.1 h
  obtain ⟨st, hst, h⟩ := bind_eq_ok.1 h
  simp only at h
  split at h
  · contradiction
  obtain ⟨extras, -, h⟩ := bind_eq_ok.1 h
  obtain ⟨word, -, h⟩ := bind_eq_ok.1 h
  obtain ⟨groups, -, h⟩ := bind_eq_ok.1 h
  obtain rfl := Except.ok.inj h
  exact ⟨hstart, st, hst, rfl, rfl, rfl⟩

/-- Before any rule there is the production for the start symbol. -/
private theorem drawn_begin {symbols : Array SymbolInfo} (h : symbols.size ≤ maxId) (start : Nat) :
    Drawn (symbols.push ⟨acceptName, false, false, true⟩)
      { symbols := symbols.push ⟨acceptName, false, false, true⟩
        productions := #[{ lhs := .ofNat symbols.size, steps := [{ symbol := ⟨start⟩ }] }] }
      ⟨symbols.size + 1, [(symbols.size, [start])]⟩ := by
  refine ⟨Array.size_push _, ?_, #[], by simp, by simp⟩
  have haccept : (Kind.ofNat symbols.size).id = symbols.size := Nat.min_eq_left h
  change _ = [((Kind.ofNat symbols.size).id, [start])]
  rw [haccept]

/-- Rules are lowered as they are sketched. -/
theorem exists_lowerRules {d : Draft} {g : Grammar} (hvalid : d.validate = .ok g) {o : Outline}
    (h : outline g = some o) :
    o.terminalCount = 2 + g.terminals.length ∧ o.size ≤ maxId ∧
      ∃ start st, (bodyScope g).lookup g.start = .ok start ∧
      lowerRules g start = .ok st ∧ st.symbols.size = o.size ∧
        st.productions.toList.zipIdx.map (fun (p, q) => ⟨q, p.lhs.id, Table.ids p.steps⟩) = o.rows ∧
          ∀ i info, o.terminalCount + g.draft.rules.length ≤ i → st.symbols[i]? = some info →
            info.visible = false := by
  unfold outline at h
  simp only [Materialize.materialize_eq] at h
  have hcount : 2 + ((literalCodes g).length + (unnamedPatterns g).length) + g.draft.tokens.length =
      2 + g.terminals.length := by
    rw [length_terminals, Nat.add_assoc]
  rw [hcount] at h
  obtain ⟨start, hstart, h⟩ := Option.bind_eq_some_iff.1 h
  split at h
  swap
  · contradiction
  next haccept =>
  obtain ⟨drawing, hdrawing, h⟩ := Option.bind_eq_some_iff.1 h
  split at h
  swap
  · contradiction
  next hsize =>
  obtain rfl := Option.some.inj h
  have hagree := agree_bodyScope hvalid (Nat.le_succ_of_le haccept)
  have hlookup : (bodyScope g).lookup g.start = .ok ⟨start⟩ := by
    rw [Scope.lookup, hagree.names _ _ hstart]
  obtain ⟨-, hsymbols, hkinds⟩ :=
    foldl_addRuleName g.draft.rules (terminalsOf g).scope (terminalsOf g).symbols #[]
  have hterminals : (terminalsOf g).symbols.size = 2 + g.terminals.length := by
    rw [terminalsOf_eq, Terminals.size_foldl_add]
    rfl
  generalize hnamed : g.draft.rules.foldl addRuleName
    ((terminalsOf g).scope, (terminalsOf g).symbols, #[]) = named at hsymbols hkinds
  have hrules : named.2.1.size = 2 + g.terminals.length + g.draft.rules.length := by
    rw [← Array.length_toList, hsymbols, List.length_append, List.length_map, Array.length_toList,
      hterminals]
  have haccept' : named.2.1.size ≤ maxId := hrules ▸ haccept
  have hbegin := drawn_begin haccept' start
  rw [hrules] at hbegin
  obtain ⟨st, hst, hdrawn⟩ :=
    exists_foldlM_lowerRule hagree (Nat.le_succ_of_le haccept) hbegin hdrawing
  refine ⟨rfl, hsize, ⟨start⟩, st, hlookup, ?_, hdrawn.next, ?_, fun i info hi hinfo => ?_⟩
  · rw [lowerRules, hnamed, hkinds, hterminals, hrules]
    exact hst
  · rw [hdrawn.rows, List.reverse_reverse, List.zipIdx_map, List.map_map]
    rfl
  · obtain ⟨more, hmore, hhidden⟩ := hdrawn.hidden
    change 2 + g.terminals.length + g.draft.rules.length ≤ i at hi
    rw [hmore, Array.push_eq_append, Array.append_assoc,
      Array.getElem?_append_right (by omega)] at hinfo
    rcases Array.mem_append.1 (Array.mem_of_getElem? hinfo) with hinfo | hinfo
    · rw [Array.mem_singleton.1 hinfo]
    · exact hhidden info hinfo

/-- A grammar in order that can be outlined has a flat form, which is that of the outline. -/
theorem flatten_of_outline {d : Draft} {g : Grammar} (hvalid : d.validate = .ok g) {o : Outline}
    (h : outline g = some o) :
    ∃ flat, flatten g = .ok flat ∧ flat.terminalCount = o.terminalCount ∧ Table.rows flat = o.rows ∧
      ∀ i info, o.terminalCount + g.draft.rules.length ≤ i → flat.symbols[i]? = some info →
        info.visible = false := by
  obtain ⟨hcount, hsize, start, st, hstart, hst, hnext, hrows, hhidden⟩ :=
    exists_lowerRules hvalid h
  cases hflat : flatten g with
  | error e =>
    obtain ⟨start', hstart', herror⟩ := lowerRules_of_flatten_error (Draft.valid_of_validate hvalid)
      (Draft.checked_of_validate hvalid) hflat
    obtain rfl := Except.ok.inj (hstart.symm.trans hstart')
    rw [hst] at herror
    rcases herror with herror | ⟨st', hst', hlt, -⟩
    · contradiction
    · obtain rfl := Except.ok.inj hst'
      omega
  | ok flat =>
    obtain ⟨hstart', st', hst', hsymbols, hproductions, hterminals⟩ := lowerRules_of_flatten hflat
    obtain hstart := Except.ok.inj (hstart.symm.trans hstart')
    rw [← hstart, hst] at hst'
    obtain rfl := Except.ok.inj hst'
    refine ⟨flat, rfl, ?_, ?_, ?_⟩
    · rw [hterminals, hcount, terminalsOf_eq, Terminals.size_foldl_add]
      rfl
    · rw [Table.rows, hproductions, hrows]
    · rwa [hsymbols]

end Reparse.Grammar
