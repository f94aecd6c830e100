import Mathlib.Data.List.Infix
import Reparse.Proofs.Beginnings
import Reparse.Proofs.Conflicts
import Reparse.Proofs.Materialization
import Reparse.Proofs.Propagation

/-! # Grammars in which FOLLOW sets leave nothing to settle

What can follow a left-hand side anywhere bounds the lookaheads of its productions in every state.
Where these bounds keep the candidates of every item set apart, no cell has two of them. That can be
checked without lookaheads, and without listing the item sets: one that comes from a single place in
a production is checked for that place, and others are met on the way from there. -/
namespace Reparse.Table
open Data Grammar

/-- What is left of a production at some place, without fields and precedences. -/
structure Spot where
  production : Nat
  lhs : Nat
  rest : List Nat
deriving DecidableEq

namespace Spot

instance : Materialize Spot where
  materialize s k := match s with
    | ⟨q, a, rest⟩ => materialize q fun q => materialize a fun a =>
        materialize rest fun rest => k ⟨q, a, rest⟩
  materialize_eq s k := by simp

/-- The spot behind the next symbol, if that is `x`. -/
def after? (x : Nat) : Spot → Option Spot
  | ⟨_, _, []⟩ => none
  | ⟨q, a, y :: rest⟩ => if Nat.beq x y then some ⟨q, a, rest⟩ else none

/-- The spots behind the first symbol. -/
def behind (s : Spot) : List Spot := s.rest.tail.tails.map fun rest => ⟨s.production, s.lhs, rest⟩

private theorem after?_eq_some_iff {x : Nat} {s t : Spot} :
    s.after? x = some t ↔ s.production = t.production ∧ s.lhs = t.lhs ∧ s.rest = x :: t.rest := by
  obtain ⟨q, a, rest⟩ := s
  obtain ⟨q', a', rest'⟩ := t
  cases rest with
  | nil => simp [after?]
  | cons y rest =>
    simp only [after?, Nat.beq_eq, Option.ite_none_right_eq_some, Option.some.injEq,
      Spot.mk.injEq, List.cons.injEq]
    constructor
    · rintro ⟨rfl, rfl, rfl, rfl⟩
      exact ⟨rfl, rfl, rfl, rfl⟩
    · rintro ⟨rfl, rfl, rfl, rfl⟩
      exact ⟨rfl, rfl, rfl, rfl⟩

end Spot

/-- Bounds on what symbols derive and what stands next to them. -/
structure Bounds where
  /-- Symbols that may derive nothing. -/
  nullable : BitSet
  /-- Terminals that a symbol may begin with. -/
  first : Nat → BitSet
  /-- Terminals that may come after a symbol. -/
  follow : Nat → BitSet
  /-- Symbols that stand first in what a symbol derives, among which is the symbol. -/
  corner : Nat → BitSet

/-- Whether one set is within another. -/
def within (s t : BitSet) : Bool := Nat.beq (s.bits ||| t.bits) t.bits

/-- Whether two sets have nothing in common. -/
def apart (s t : BitSet) : Bool := Nat.beq (s.bits &&& t.bits) 0

private theorem subset_of_within {s t : BitSet} (h : within s t = true) : s ⊆ t := by
  intro i hi
  have hunion : s.union t = t := congrArg BitSet.mk (Nat.eq_of_beq_eq_true h)
  rw [← hunion]
  exact BitSet.mem_union.2 (.inl hi)

theorem not_mem_of_apart {s t : BitSet} (h : apart s t = true) {i : Nat} (hs : i ∈ s) : i ∉ t := by
  intro ht
  have hboth : (s.bits &&& t.bits).testBit i = true := by
    rw [Nat.testBit_and, BitSet.mem_iff.1 hs, BitSet.mem_iff.1 ht]
    rfl
  rw [Nat.eq_of_beq_eq_true h, Nat.zero_testBit] at hboth
  contradiction

namespace Bounds

variable (b : Bounds)

/-! ## Bounds that hold -/

/-- Whether some symbols may derive nothing. -/
def vanish : List Nat → Bool
  | [] => true
  | x :: rest => b.nullable.contains x && vanish rest

/-- Terminals that a sequence of symbols may begin with. -/
def begin : List Nat → BitSet
  | [] => .empty
  | x :: rest => if b.nullable.contains x then (b.first x).union (begin rest) else b.first x

/-- Whether the bounds on what comes after symbols hold at all places from here on in a production
of `a`. -/
def followsAt (a : Nat) : List Nat → Bool
  | [] => true
  | x :: rest =>
    within (b.begin rest) (b.follow x) && (!b.vanish rest || within (b.follow a) (b.follow x)) &&
    followsAt a rest

def cornerAt (a : Nat) : List Nat → Bool
  | [] => true
  | x :: _ => within (b.corner x) (b.corner a)

/-- Whether the bounds hold for a production. -/
def holdsAt (row : Spot) : Bool :=
  within (b.begin row.rest) (b.first row.lhs) &&
    (!b.vanish row.rest || b.nullable.contains row.lhs) && b.followsAt row.lhs row.rest &&
    b.cornerAt row.lhs row.rest && (b.corner row.lhs).contains row.lhs

/-- Whether the bounds hold for a grammar with `n` terminals. -/
def holds (n : Nat) (rows : List Spot) : Bool :=
  (List.range n).all (fun t => (b.first t).contains t) && rows.all b.holdsAt &&
    rows.head?.any fun row => (b.follow row.lhs).contains Kind.eof.id

/-! ## Item sets without conflicts -/

/-- The symbols that stand first in what the next symbols derive. -/
def corners : List Spot → BitSet
  | [] => .empty
  | s :: rest => match s.rest with
    | [] => corners rest
    | x :: _ => (b.corner x).union (corners rest)

/-- The spots with all that are predicted from them. -/
def expand (rows spots : List Spot) : List Spot :=
  materialize (b.corners spots) fun reached =>
    if reached.isEmpty then spots else spots ++ rows.filter fun row => reached.contains row.lhs

end Bounds

namespace Spot

/-- The next symbols. -/
def heads : List Spot → BitSet
  | [] => .empty
  | s :: rest => match s.rest with
    | [] => heads rest
    | x :: _ => (heads rest).insert x

/-- The symbols that come next more than once, or once if they were seen before, without those that
were told. -/
def shared (seen told : BitSet) : List Spot → List Nat
  | [] => []
  | s :: rest => match s.rest with
    | [] => shared seen told rest
    | x :: _ =>
      if told.contains x then shared seen told rest
      else if seen.contains x then x :: materialize (told.insert x) fun told =>
        shared seen told rest
      else materialize (seen.insert x) fun seen => shared seen told rest

end Spot

namespace Bounds

variable (b : Bounds)

/-- Whether nothing that may follow a complete spot is taken, by what can be read or by another
complete spot. -/
def settled (taken : BitSet) : List Spot → Bool
  | [] => true
  | s :: rest => match s.rest with
    | [] => apart (b.follow s.lhs) taken && materialize (taken.union (b.follow s.lhs)) fun taken =>
        settled taken rest
    | _ :: _ => settled taken rest

/-- Whether there is no conflict in the item set of some spots, nor in what it leads to by symbols
that come next more than once, and so on. -/
def clear (rows : List Spot) : (fuel : Nat) → List Spot → Bool
  | 0, _ => false
  | fuel + 1, spots => materialize (b.expand rows spots) fun all =>
    materialize (Spot.heads all) fun heads => b.settled heads all &&
      (Spot.shared .empty .empty all).all fun x => clear rows fuel (all.filterMap (·.after? x))

/-- Whether the bounds hold and leave no conflict behind any place in a production. -/
def suffice (n fuel : Nat) (rows : List Spot) : Bool :=
  b.holds n rows && (rows.take 1).all (fun s => b.clear rows fuel [s]) &&
    rows.all fun row => row.behind.all fun s => b.clear rows fuel [s]

end Bounds

/-! ## What the bounds say of a grammar -/

variable {g : Flat} {b : Bounds} {i : Item} {s : Step} {rest : List Step} {kernel : Items}
  {cores : List Item}

/-- The symbols of some steps. -/
abbrev ids (steps : List Step) : List Nat := steps.map (·.symbol.id)

/-- The spot of an item. -/
def spotOf (g : Flat) (i : Item) : Spot :=
  ⟨i.production, (Conflict.lhsOf g i.production).id, ids (g.stepsFrom i.production i.dot)⟩

/-- The productions as spots. -/
def rows (g : Flat) : List Spot :=
  g.productions.toList.zipIdx.map fun (p, q) => ⟨q, p.lhs.id, ids p.steps⟩

theorem lhsOf_eq {q : Nat} {p : Production} (hp : g.productions[q]? = some p) :
    Conflict.lhsOf g q = p.lhs := by
  rw [Conflict.lhsOf, hp]
  rfl

theorem spotOf_start {q : Nat} {p : Production} (hp : g.productions[q]? = some p) :
    spotOf g ⟨q, 0⟩ = ⟨q, p.lhs.id, ids p.steps⟩ := by
  rw [spotOf, lhsOf_eq hp, Flat.stepsFrom_zero hp]

theorem getElem?_rows {q : Nat} {p : Production} (hp : g.productions[q]? = some p) :
    (rows g)[q]? = some (spotOf g ⟨q, 0⟩) := by
  rw [rows, List.getElem?_map, List.getElem?_zipIdx, Array.getElem?_toList, hp, spotOf_start hp]
  simp

theorem spotOf_mem_rows {q : Nat} {p : Production} (hp : g.productions[q]? = some p) :
    spotOf g ⟨q, 0⟩ ∈ rows g :=
  List.mem_of_getElem? (getElem?_rows hp)

private theorem after?_spotOf (hs : g.stepsFrom i.production i.dot = s :: rest) :
    (spotOf g i).after? s.symbol.id = some (spotOf g i.advance) := by
  rw [Spot.after?_eq_some_iff]
  refine ⟨rfl, rfl, ?_⟩
  simp only [spotOf, ids, hs, Flat.stepsFrom_advance hs, List.map_cons]

/-- The bounds hold for a grammar. -/
structure Bounds.Hold (b : Bounds) (g : Flat) : Prop where
  terminal : ∀ k, g.isTerminal k = true → k.id ∈ b.first k.id
  start : Kind.eof.id ∈ b.follow (Conflict.lhsOf g 0).id
  first : ∀ (q : Nat) (p : Production), g.productions[q]? = some p →
    b.begin (ids p.steps) ⊆ b.first p.lhs.id
  nullable : ∀ (q : Nat) (p : Production), g.productions[q]? = some p →
    b.vanish (ids p.steps) = true → b.nullable.contains p.lhs.id = true
  follow : ∀ (i : Item) (s : Step) (rest : List Step), g.stepsFrom i.production i.dot = s :: rest →
    b.begin (ids rest) ⊆ b.follow s.symbol.id ∧
      (b.vanish (ids rest) = true →
      b.follow (Conflict.lhsOf g i.production).id ⊆ b.follow s.symbol.id)
  corner : ∀ (q : Nat) (p : Production) (s : Step) (rest : List Step), g.productions[q]? = some p →
    p.steps = s :: rest → b.corner s.symbol.id ⊆ b.corner p.lhs.id
  self : ∀ (q : Nat) (p : Production), g.productions[q]? = some p → p.lhs.id ∈ b.corner p.lhs.id

namespace Bounds

private theorem of_followsAt {a x : Nat} {symbols more : List Nat}
    (h : b.followsAt a symbols = true) (hsuffix : x :: more <:+ symbols) :
    b.begin more ⊆ b.follow x ∧ (b.vanish more = true → b.follow a ⊆ b.follow x) := by
  induction symbols with
  | nil => exact absurd (List.suffix_nil.1 hsuffix) (List.cons_ne_nil x more)
  | cons y symbols ih =>
    simp only [followsAt, Bool.and_eq_true, Bool.or_eq_true, Bool.not_eq_true'] at h
    rcases List.suffix_cons_iff.1 hsuffix with heq | hsuffix
    · obtain ⟨rfl, rfl⟩ := List.cons.inj heq
      refine ⟨subset_of_within h.1.1, fun hvanish => ?_⟩
      rcases h.1.2 with hno | hwithin
      · rw [hvanish] at hno
        contradiction
      · exact subset_of_within hwithin
    · exact ih h.2 hsuffix

private theorem hold_of_holds (hg : g.WellFormed) (h : b.holds g.terminalCount (rows g) = true) :
    b.Hold g := by
  simp only [holds, Bool.and_eq_true, List.all_eq_true, List.mem_range] at h
  obtain ⟨⟨hterminals, hrows⟩, hstart⟩ := h
  have hrow {q : Nat} {p : Production} (hp : g.productions[q]? = some p) :=
    hrows _ (spotOf_mem_rows hp)
  simp only [holdsAt, Bool.and_eq_true, Bool.or_eq_true, Bool.not_eq_true'] at hrow
  refine ⟨fun k hk => hterminals k.id (of_decide_eq_true hk), ?_, fun q p hp => ?_,
    fun q p hp hvanish => ?_, fun i s rest hs => ?_, fun q p s rest hp hsteps =>
    ?_, fun q p hp => ?_⟩
  · obtain ⟨accept, hzero, -⟩ := hg.accepting
    rwa [List.head?_eq_getElem?, getElem?_rows hzero] at hstart
  · have hwithin := subset_of_within (hrow hp).1.1.1.1
    rwa [spotOf_start hp] at hwithin
  · have hnullable := (hrow hp).1.1.1.2
    rw [spotOf_start hp] at hnullable
    rcases hnullable with hno | hnullable
    · rw [hvanish] at hno
      contradiction
    · exact hnullable
  · obtain ⟨p, hp, -⟩ :=
      Flat.mem_of_mem_stepsFrom (g := g) (s := s) (by rw [hs]; exact List.mem_cons_self)
    have hfollows := (hrow hp).1.1.2
    rw [spotOf_start hp] at hfollows
    rw [lhsOf_eq hp]
    refine of_followsAt hfollows ?_
    rw [Flat.stepsFrom_eq_drop, Flat.stepsFrom_zero hp] at hs
    have hsuffix := (List.drop_suffix i.dot p.steps).map (·.symbol.id)
    rwa [hs] at hsuffix
  · have hcorner := (hrow hp).1.2
    rw [spotOf_start hp, hsteps] at hcorner
    exact subset_of_within hcorner
  · have hself := (hrow hp).2
    rwa [spotOf_start hp] at hself

end Bounds

/-! ## Sequences of symbols -/

namespace Bounds

private theorem vanish_append (xs ys : List Nat) :
    b.vanish (xs ++ ys) = (b.vanish xs && b.vanish ys) := by
  induction xs with
  | nil => rfl
  | cons x xs ih => rw [List.cons_append, vanish, vanish, ih, Bool.and_assoc]

private theorem mem_begin_cons {x t : Nat} {xs : List Nat} :
    t ∈ b.begin (x :: xs) ↔ t ∈ b.first x ∨ b.nullable.contains x = true ∧ t ∈ b.begin xs := by
  rw [begin]
  split
  · next hx => simp [hx]
  · next hx => simp [hx]

private theorem of_mem_begin_append {t : Nat} {xs ys : List Nat} (h : t ∈ b.begin (xs ++ ys)) :
    t ∈ b.begin xs ∨ b.vanish xs = true ∧ t ∈ b.begin ys := by
  induction xs with
  | nil => exact .inr ⟨rfl, h⟩
  | cons x xs ih =>
    rcases mem_begin_cons.1 h with h | ⟨hx, h⟩
    · exact .inl (mem_begin_cons.2 (.inl h))
    · rcases ih h with h | ⟨hxs, h⟩
      · exact .inl (mem_begin_cons.2 (.inr ⟨hx, h⟩))
      · exact .inr ⟨by rw [vanish, hx, hxs]; rfl, h⟩

namespace Hold

variable (hb : b.Hold g)
include hb

private theorem vanish_of_yields {ks : List Kind} (h : Yields g ks []) :
    b.vanish (ks.map (·.id)) = true := by
  generalize hw : ([] : List Kind) = w at h
  induction h with
  | nil => rfl
  | keep k rest => contradiction
  | @expand q p a w hp rest ih =>
    have hboth := ih hw
    rw [List.map_append, vanish_append, Bool.and_eq_true, List.map_map] at hboth
    rw [List.map_cons, vanish, hb.nullable q p hp hboth.1, hboth.2]
    rfl

private theorem begin_of_yields {ks w : List Kind} {k : Kind} (h : Yields g ks (k :: w))
    (hk : g.isTerminal k = true) :
    k.id ∈ b.begin (ks.map (·.id)) := by
  generalize hw : k :: w = all at h
  induction h with
  | nil => contradiction
  | @keep x a w' rest =>
    rw [← (List.cons.inj hw).1, List.map_cons]
    exact mem_begin_cons.2 (.inl (hb.terminal k hk))
  | @expand q p a w' hp rest ih =>
    have hmem := ih hw
    rw [List.map_append, List.map_map] at hmem
    rw [List.map_cons]
    rcases of_mem_begin_append hmem with hmem | ⟨hvanish, hmem⟩
    · exact mem_begin_cons.2 (.inl (hb.first q p hp _ hmem))
    · exact mem_begin_cons.2 (.inr ⟨hb.nullable q p hp hvanish, hmem⟩)

variable (hg : g.WellFormed)
include hg

/-- The bounds are no smaller than FIRST sets. -/
private theorem mem_begin {t : Nat} (h : t ∈ ((First.compute g).ofSteps rest).1) :
    t ∈ b.begin (ids rest) := by
  obtain ⟨hterminal, w, hw⟩ := (First.mem_ofSteps_iff hg t).1 h
  have hmem := hb.begin_of_yields (yields_of_derives hw) hterminal
  rwa [List.map_map] at hmem

private theorem vanish (h : ((First.compute g).ofSteps rest).2 = true) :
    b.vanish (ids rest) = true := by
  have hvanish := hb.vanish_of_yields (yields_of_derives ((First.nullable_ofSteps_iff hg).1 h))
  rwa [List.map_map] at hvanish

/-! ## Lookaheads -/

theorem follow_of_ahead {t : Nat}
    (hkernel : ∀ i t, kernel.Has i t → t ∈ b.follow (Conflict.lhsOf g i.production).id)
    (h : Items.Ahead g (First.compute g) kernel i t) :
    t ∈ b.follow (Conflict.lhsOf g i.production).id := by
  have hpredicted {s : Step} {q : Nat} (hq : q ∈ g.productionsOf s.symbol) :
      Conflict.lhsOf g q = s.symbol := by
    obtain ⟨p, hp, hlhs⟩ := (hg.index s.symbol q).1 hq
    rw [lhsOf_eq hp, hlhs]
  induction h with
  | kernel h => exact hkernel _ _ h
  | @spontaneous i s rest q t source hs nonterminal hq begins =>
    rw [hpredicted hq]
    exact (hb.follow i s rest hs).1 t (hb.mem_begin hg begins)
  | @inherited i s rest q t source hs nonterminal hq vanishes ih =>
    rw [hpredicted hq]
    exact (hb.follow i s rest hs).2 (hb.vanish hg vanishes) t ih

/-- Lookaheads follow the left-hand side somewhere. -/
theorem follow_of_kernel (h : Kernel g (First.compute g) kernel) :
    ∀ i t, kernel.Has i t → t ∈ b.follow (Conflict.lhsOf g i.production).id := by
  induction h with
  | start =>
    rintro i t ⟨ahead, hmem, ht⟩
    obtain ⟨rfl, rfl⟩ := Prod.mk.inj (List.mem_singleton.1 hmem)
    rw [BitSet.mem_singleton.1 ht]
    exact hb.start
  | successor h hnext ih =>
    intro i t hi
    obtain ⟨j, s, rest, hj, -, -, rfl⟩ := (Items.has_successor hnext).1 hi
    change t ∈ b.follow (Conflict.lhsOf g j.production).id
    exact hb.follow_of_ahead hg ih (Items.ahead_of_has_closure hj)
  | unite ha hb' hcores iha ihb =>
    intro i t hi
    rcases Items.has_unite hcores hi with hi | hi
    · exact iha i t hi
    · exact ihb i t hi

end Hold
end Bounds

/-! ## Spots of closures -/

/-- Symbols that stand first in a production of another. -/
def Corner (g : Flat) (x y : Nat) : Prop :=
  ∃ (q : Nat) (p : Production) (s : Step) (rest : List Step),
    g.productions[q]? = some p ∧ p.lhs.id = x ∧ p.steps = s :: rest ∧ s.symbol.id = y

/-- A predicted production is that of a symbol that stands first in what a kernel item goes on
with. -/
private theorem closed_cases (hg : g.WellFormed) (h : Items.Closed g cores i) : i ∈ cores ∨
    ∃ p j s rest, i.dot = 0 ∧ g.productions[i.production]? = some p ∧ j ∈ cores ∧
      g.stepsFrom j.production j.dot = s :: rest ∧
        Relation.ReflTransGen (Corner g) s.symbol.id p.lhs.id := by
  induction h with
  | kernel h => exact .inl h
  | @predict i s rest q source hs nonterminal hq ih =>
    obtain ⟨p, hp, hlhs⟩ := (hg.index s.symbol q).1 hq
    refine .inr ?_
    rcases ih with hi | ⟨p', j, s', rest', hdot, hp', hj, hs', hpath⟩
    · exact ⟨p, i, s, rest, rfl, hp, hi, hs, by rw [hlhs]⟩
    · refine ⟨p, j, s', rest', rfl, hp, hj, hs',
        hpath.tail ⟨i.production, p', s, rest, hp', rfl, ?_, by rw [hlhs]⟩⟩
      rw [← Flat.stepsFrom_zero hp', ← hdot, hs]

namespace Bounds

private theorem mem_corners {x : Nat} {spots : List Spot} :
    x ∈ b.corners spots ↔ ∃ s ∈ spots, ∃ y rest, s.rest = y :: rest ∧ x ∈ b.corner y := by
  induction spots with
  | nil => simp [corners]
  | cons s spots ih =>
    rw [corners]
    cases hrest : s.rest with
    | nil => simp [ih, hrest]
    | cons y rest => simp [ih, hrest]

private theorem mem_expand {spots : List Spot} {row : Spot} : row ∈ b.expand (rows g) spots ↔
    row ∈ spots ∨ row ∈ rows g ∧ row.lhs ∈ b.corners spots := by
  rw [expand, Materialize.materialize_eq]
  split
  · next hempty =>
    have hnone : row.lhs ∉ b.corners spots := by
      have hbits : (b.corners spots).bits = 0 := eq_of_beq hempty
      rw [BitSet.mem_iff, hbits, Nat.zero_testBit]
      exact Bool.false_ne_true
    simp [hnone]
  · rw [List.mem_append, List.mem_filter]
    rfl

namespace Hold

variable (hb : b.Hold g)
include hb

private theorem corner_of_path {q x : Nat} {p : Production} (hp : g.productions[q]? = some p)
    (h : Relation.ReflTransGen (Corner g) x p.lhs.id) : p.lhs.id ∈ b.corner x := by
  induction h using Relation.ReflTransGen.head_induction_on with
  | refl => exact hb.self q p hp
  | head hstep _ ih =>
    obtain ⟨q', p', s, rest, hp', rfl, hsteps, rfl⟩ := hstep
    exact hb.corner q' p' s rest hp' hsteps _ ih

private theorem spot_of_closed (hg : g.WellFormed) {spots : List Spot}
    (hspots : ∀ i ∈ cores, spotOf g i ∈ spots) (h : Items.Closed g cores i) :
    spotOf g i ∈ b.expand (rows g) spots := by
  rw [mem_expand]
  rcases closed_cases hg h with hi | ⟨p, j, s, rest, hdot, hp, hj, hs, hpath⟩
  · exact .inl (hspots i hi)
  · obtain ⟨q, d⟩ := i
    obtain rfl : d = 0 := hdot
    refine .inr ⟨spotOf_mem_rows hp, ?_⟩
    rw [mem_corners, spotOf_start hp]
    exact ⟨spotOf g j, hspots j hj, s.symbol.id,
      ids rest, by simp only [spotOf, ids, hs, List.map_cons], hb.corner_of_path hp hpath⟩

end Hold
end Bounds

/-! ## Item sets -/

namespace Spot

variable {spots : List Spot}

private theorem mem_heads {x : Nat} :
    x ∈ heads spots ↔ ∃ s ∈ spots, ∃ rest, s.rest = x :: rest := by
  induction spots with
  | nil => simp [heads]
  | cons s spots ih =>
    rw [heads]
    cases hrest : s.rest with
    | nil => simp [ih, hrest]
    | cons y rest => simp [ih, hrest, eq_comm]

/-- A symbol that is not shared comes next once at most, and not at all if it was seen before. -/
private theorem length_le_of_not_shared {seen told : BitSet} {x : Nat}
    (h : x ∉ shared seen told spots) (htold : x ∉ told) :
    (x ∈ seen → spots.filterMap (·.after? x) = []) ∧ (spots.filterMap (·.after? x)).length ≤ 1 := by
  induction spots generalizing seen told with
  | nil => exact ⟨fun _ => rfl, Nat.zero_le 1⟩
  | cons s spots ih =>
    obtain ⟨q, a, rest⟩ := s
    cases rest with
    | nil => exact ih h htold
    | cons y rest =>
      have hother (hxy : x ≠ y) : after? x ⟨q, a, y :: rest⟩ = none := by simp [after?, hxy]
      simp only [shared, Materialize.materialize_eq] at h
      split at h
      · next hy =>
        have hxy : x ≠ y := by
          rintro rfl
          exact htold hy
        rw [List.filterMap_cons_none (hother hxy)]
        exact ih h htold
      · split at h
        · rw [List.mem_cons, not_or] at h
          obtain ⟨hxy, h⟩ := h
          rw [List.filterMap_cons_none (hother hxy)]
          exact ih h fun hx => (BitSet.mem_insert.1 hx).elim hxy htold
        · next hy =>
          obtain ⟨hseen, hlength⟩ := ih h htold
          by_cases hxy : x = y
          · subst hxy
            have hafter : after? x ⟨q, a, x :: rest⟩ = some ⟨q, a, rest⟩ := by simp [after?]
            rw [List.filterMap_cons_some hafter, hseen (BitSet.mem_insert.2 (.inl rfl))]
            exact ⟨fun hx => absurd hx hy, Nat.le_refl 1⟩
          · rw [List.filterMap_cons_none (hother hxy)]
            exact ⟨fun hx => hseen (BitSet.mem_insert.2 (.inr hx)), hlength⟩

end Spot

namespace Bounds

variable {spots : List Spot}

/-- If both are complete, nothing may follow both. -/
def Apart (b : Bounds) (s s' : Spot) : Prop :=
  s.rest = [] → s'.rest = [] → ∀ t ∈ b.follow s.lhs, t ∉ b.follow s'.lhs

instance : Std.Symm b.Apart := ⟨fun _ _ h hs hs' t ht ht' => h hs' hs t ht' ht⟩

/-- Where something complete is settled, nothing that follows it was taken. -/
private theorem of_settled {taken : BitSet} (h : b.settled taken spots = true) :
    (∀ s ∈ spots, s.rest = [] → ∀ t ∈ b.follow s.lhs, t ∉ taken) ∧ spots.Pairwise b.Apart := by
  induction spots generalizing taken with
  | nil => exact ⟨fun s hs => absurd hs List.not_mem_nil, .nil⟩
  | cons s spots ih =>
    rw [settled] at h
    cases hrest : s.rest with
    | nil =>
      simp only [hrest, Bool.and_eq_true, Materialize.materialize_eq] at h
      obtain ⟨hall, hpairs⟩ := ih h.2
      refine ⟨fun s' hs' hcomplete t ht => ?_,
        List.pairwise_cons.2 ⟨fun s' hs' _ hcomplete t ht ht' => ?_, hpairs⟩⟩
      · rcases List.mem_cons.1 hs' with rfl | hs'
        · exact not_mem_of_apart h.1 ht
        · exact fun htaken => hall s' hs' hcomplete t ht (BitSet.mem_union.2 (.inl htaken))
      · exact hall s' hs' hcomplete t ht' (BitSet.mem_union.2 (.inr ht))
    | cons y rest =>
      simp only [hrest] at h
      obtain ⟨hall, hpairs⟩ := ih h
      refine ⟨fun s' hs' hcomplete => ?_, List.pairwise_cons.2 ⟨fun s' _ hcomplete => ?_, hpairs⟩⟩
      · rcases List.mem_cons.1 hs' with rfl | hs'
        · rw [hrest] at hcomplete
          contradiction
        · exact hall s' hs' hcomplete
      · rw [hrest] at hcomplete
        contradiction

/-- There is no conflict in the item set of the spots, nor in what symbols that come next more than
once lead to. -/
inductive Clear (b : Bounds) (rows : List Spot) : List Spot → Prop
  | intro {spots : List Spot}
      (settled : b.settled (Spot.heads (b.expand rows spots)) (b.expand rows spots) = true)
      (next : ∀ x ∈ Spot.shared .empty .empty (b.expand rows spots),
        Clear b rows ((b.expand rows spots).filterMap (·.after? x))) : Clear b rows spots

private theorem clear_of_clear {rows : List Spot} {fuel : Nat}
    (h : b.clear rows fuel spots = true) : b.Clear rows spots := by
  induction fuel generalizing spots with
  | zero => contradiction
  | succ fuel ih =>
    simp only [clear, Materialize.materialize_eq, Bool.and_eq_true, List.all_eq_true] at h
    exact .intro h.1 fun x hx => ih (h.2 x hx)

/-- The bounds hold and leave no conflict. -/
structure Suffice (b : Bounds) (g : Flat) : Prop where
  hold : b.Hold g
  start : b.Clear (rows g) [spotOf g ⟨0, 0⟩]
  behind : ∀ row ∈ rows g, ∀ s ∈ row.behind, b.Clear (rows g) [s]

theorem suffice_of_suffice (hg : g.WellFormed) {fuel : Nat}
    (h : b.suffice g.terminalCount fuel (rows g) = true) :
    b.Suffice g := by
  simp only [suffice, Bool.and_eq_true, List.all_eq_true] at h
  obtain ⟨accept, hzero, -⟩ := hg.accepting
  refine ⟨hold_of_holds hg h.1.1, clear_of_clear (h.1.2 _ ?_), fun row hrow s hs =>
    clear_of_clear (h.2 row hrow s hs)⟩
  have hhead := getElem?_rows hzero
  rw [← List.head?_eq_getElem?, List.head?_eq_some_iff] at hhead
  obtain ⟨more, hmore⟩ := hhead
  rw [hmore]
  exact List.mem_cons_self

/-- What stands behind a symbol in an item set, if nothing else does, is a spot of its own. -/
private theorem mem_behind (hs : g.stepsFrom i.production i.dot = s :: rest) :
    ∃ row ∈ rows g, spotOf g i.advance ∈ row.behind := by
  obtain ⟨p, hp, -⟩ :=
    Flat.mem_of_mem_stepsFrom (g := g) (s := s) (by rw [hs]; exact List.mem_cons_self)
  refine ⟨_, spotOf_mem_rows hp, List.mem_map.2 ⟨ids rest, (List.mem_tails _ _).2 ?_, ?_⟩⟩
  · rw [spotOf_start hp]
    change ids rest <:+ (ids p.steps).tail
    rw [ids, ids, ← List.map_tail]
    refine List.IsSuffix.map _ ?_
    have htail := congrArg List.tail hs
    rw [Flat.stepsFrom_eq_drop, Flat.stepsFrom_zero hp, List.tail_drop, ← List.drop_tail] at htail
    have hrest : rest = p.steps.tail.drop i.dot := htail.symm
    rw [hrest]
    exact List.drop_suffix i.dot p.steps.tail
  · rw [spotOf, spotOf, Flat.stepsFrom_advance hs]
    rfl

/-- Every kernel is within spots that were checked. -/
private theorem Suffice.exists_clear (hb : b.Suffice g) (hg : g.WellFormed)
    (h : Kernel g (First.compute g) kernel) :
    ∃ spots, b.Clear (rows g) spots ∧ ∀ i ∈ kernel.cores, spotOf g i ∈ spots := by
  induction h with
  | start =>
    exact ⟨_, hb.start, fun i hi =>
      by rw [List.mem_singleton.1 hi]; exact List.mem_singleton_self _⟩
  | @successor kernel next x h hnext ih =>
    obtain ⟨spots, ⟨-, hclear⟩, hspots⟩ := ih
    have hafter : ∀ i ∈ next.cores, spotOf g i ∈
        (b.expand (rows g) spots).filterMap (·.after? x.id) ∧
        ∃ row ∈ rows g, spotOf g i ∈ row.behind := by
      intro i hi
      obtain ⟨entry, hentry, rfl⟩ := List.mem_map.1 hi
      obtain ⟨j, s, rest, hj, hs, rfl, hadvance⟩ := Items.of_mem_successors hnext entry hentry
      rw [hadvance]
      exact ⟨List.mem_filterMap.2
        ⟨spotOf g j, hb.hold.spot_of_closed hg hspots (Items.closed_of_mem_closure hj),
        after?_spotOf hs⟩, mem_behind hs⟩
    by_cases hx : x.id ∈ Spot.shared .empty .empty (b.expand (rows g) spots)
    · exact ⟨_, hclear x.id hx, fun i hi => (hafter i hi).1⟩
    · have hlength := (Spot.length_le_of_not_shared hx (BitSet.not_mem_empty _)).2
      obtain ⟨entry, hentry⟩ := List.exists_mem_of_ne_nil _ (Items.ne_nil_of_mem_successors hnext)
      obtain ⟨hmem, row, hrow, hbehind⟩ := hafter entry.1 (List.mem_map_of_mem hentry)
      generalize (b.expand (rows g) spots).filterMap (·.after? x.id) = after at hafter hlength hmem
      obtain ⟨s, rfl⟩ : ∃ s, after = [s] :=
        List.length_eq_one_iff.1 (Nat.le_antisymm hlength (List.length_pos_of_mem hmem))
      rw [List.mem_singleton] at hmem
      rw [hmem] at hbehind
      exact ⟨[s], hb.behind row hrow s hbehind, fun i hi => (hafter i hi).1⟩
  | unite ha hb' hcores iha ihb =>
    obtain ⟨spots, hclear, hspots⟩ := iha
    refine ⟨spots, hclear, ?_⟩
    rw [Items.cores_unite hcores]
    exact hspots

end Bounds

private theorem exists_shift_asked {st : State} {k : Kind}
    (h : (cellAt g (First.compute g) st k).shift.isSome = true) :
    ∃ i, Asks g (First.compute g) st k (.shift i) := by
  simp only [cellAt, cellOf] at h
  split at h
  · contradiction
  · next hitems =>
    obtain ⟨i, hi⟩ := List.exists_mem_of_ne_nil _ (mt List.isEmpty_iff.2 hitems)
    exact ⟨i, mem_items_asked.1 hi⟩

/-- Bounds that suffice leave one candidate to every cell. -/
theorem Bounds.Suffice.singleCandidates (hb : b.Suffice g) (hg : g.WellFormed) (mode : Mode) :
    SingleCandidates g mode := by
  intro id st hst cell hcell
  obtain ⟨-, hcell⟩ := mem_cells_iff.1 hcell
  have hkernel := kernel_automaton mode hst
  obtain ⟨spots, ⟨hsettled, -⟩, hspots⟩ := hb.exists_clear hg hkernel
  obtain ⟨htaken, hpairs⟩ := of_settled hsettled
  have hspot {i : Item} {ahead : BitSet}
      (hi : (i, ahead) ∈ Items.closure g (First.compute g) st.kernel) :=
    hb.hold.spot_of_closed hg hspots (Items.closed_of_mem_closure hi)
  have hfollow {i : Item} {ahead : BitSet}
      (hi : (i, ahead) ∈ Items.closure g (First.compute g) st.kernel) {t : Nat}
      (ht : t ∈ ahead) : t ∈ b.follow (spotOf g i).lhs :=
    hb.hold.follow_of_ahead hg (hb.hold.follow_of_kernel hg hkernel)
      (Items.ahead_of_has_closure ⟨ahead, hi, ht⟩)
  have hcomplete {i : Item} (hi : g.stepsFrom i.production i.dot = []) :
      (spotOf g i).rest = [] := by
    rw [spotOf, hi]
    rfl
  rw [hcell]
  refine ⟨fun hshift => ?_, fun q hq q' hq' => ?_⟩
  · rw [List.eq_nil_iff_forall_not_mem]
    intro q hq
    obtain ⟨i, hi⟩ := exists_shift_asked hshift
    cases hi with
    | @shift _ ahead s rest hmem hs hsymbol terminal =>
      cases mem_reduces_cellAt.1 hq with
      | @reduce j ahead' hmem' hs' hk =>
        refine htaken _ (hspot hmem') (hcomplete hs') _ (hfollow hmem' hk)
          (Spot.mem_heads.2 ⟨_, hspot hmem, ids rest, ?_⟩)
        rw [← hsymbol, spotOf, hs]
        rfl
  · cases mem_reduces_cellAt.1 hq with
    | @reduce i ahead hmem hs hk =>
      cases mem_reduces_cellAt.1 hq' with
      | @reduce j ahead' hmem' hs' hk' =>
        by_contra hne
        have hspots : spotOf g i ≠ spotOf g j := fun h => hne (congrArg Spot.production h)
        exact hpairs.forall (hspot hmem) (hspot hmem') hspots (hcomplete hs) (hcomplete hs')
          _ (hfollow hmem hk) (hfollow hmem' hk')

/-- Where every cell has one candidate at most, there is a table. -/
theorem exists_table_of_single (hg : g.WellFormed) {mode : Mode}
    (hsingle : SingleCandidates g mode) :
    ∃ t, build g mode = .ok t := by
  rw [build_ok_iff, reports_eq_nil_iff]
  intro id st k hst
  by_cases hasks : ∃ c, Asks g (First.compute g) st k c
  · obtain ⟨c, hc⟩ := hasks
    obtain ⟨hshift, hreduces⟩ := hsingle id st hst _ (cellAt_mem_cells hc)
    have hsorted := sorted_cellAt hg hst k
    generalize cellAt g (First.compute g) st k = cell at hshift hreduces hsorted
    obtain ⟨lookahead, shift, reduces⟩ := cell
    cases reduces with
    | nil => exact ⟨_, rfl⟩
    | cons q rest =>
      obtain rfl : rest = [] := by
        rw [List.eq_nil_iff_forall_not_mem]
        intro q' hq'
        have hlt := (List.pairwise_cons.1 hsorted).1 q' hq'
        rw [hreduces q List.mem_cons_self q' (List.mem_cons_of_mem q hq')] at hlt
        exact Nat.lt_irrefl q' hlt
      cases shift with
      | none => exact ⟨_, rfl⟩
      | some s => exact absurd (hshift rfl) (List.cons_ne_nil q [])
  · exact ⟨none, resolve_of_not_asked fun c hc => hasks ⟨c, hc⟩⟩

/-! ## Finding bounds -/

/-- Bounds as they are found: every symbol has a row of so many digits. The digits before the first
row count what was added, since large numbers are told apart fastest by their last digits. -/
structure Estimate where
  nullable : BitSet
  first : BitSet
  follow : BitSet
  corner : BitSet

namespace Estimate

instance : Materialize Estimate where
  materialize e k := match e with
    | ⟨nullable, first, follow, corner⟩ =>
      materialize nullable fun nullable => materialize first fun first =>
      materialize follow fun follow => materialize corner fun corner =>
        k ⟨nullable, first, follow, corner⟩
  materialize_eq e k := by simp

/-- The row of a symbol. -/
def row (width : Nat) (r : BitSet) (x : Nat) : BitSet :=
  ⟨(r.bits >>> ((x + 1) * width)) % 2 ^ width⟩

/-- Adds a set to the row of a symbol. -/
def add (width : Nat) (r : BitSet) (x : Nat) (s : BitSet) : BitSet :=
  if within s (row width r x) then r else ⟨(r.bits + 1) ||| s.bits <<< ((x + 1) * width)⟩

def bounds (width : Nat) (e : Estimate) : Bounds :=
  ⟨e.nullable, row width e.first, row width e.follow, row width e.corner⟩

/-- What a production teaches about what comes after symbols, from here on. -/
def learnFollow (width : Nat) (e : Estimate) (a : Nat) : List Nat → BitSet → BitSet
  | [], follow => follow
  | x :: rest, follow =>
    let b := e.bounds width
    materialize
      (add width follow x
      (if b.vanish rest then (b.begin rest).union (row width follow a) else b.begin rest))
      fun follow => learnFollow width e a rest follow

def learn (width : Nat) (e : Estimate) (s : Spot) : Estimate :=
  let b := e.bounds width
  { nullable := if b.vanish s.rest then e.nullable.insert s.lhs else e.nullable
    first := add width e.first s.lhs (b.begin s.rest)
    follow := learnFollow width e s.lhs s.rest e.follow
    corner := match s.rest with
      | [] => e.corner
      | x :: _ => add width e.corner s.lhs (b.corner x) }

/-- What all productions teach, one after another. -/
def pass (width : Nat) (e : Estimate) : List Spot → Estimate
  | [] => e
  | s :: rest => materialize (e.learn width s) fun e => pass width e rest

/-- Terminals begin with themselves, left-hand sides stand first in themselves, and the end follows
production 0. -/
def start (n width : Nat) (rows : List Spot) : Estimate where
  nullable := .empty
  first := (List.range n).foldr (fun t r => add width r t (.singleton t)) .empty
  follow := match rows with
    | [] => .empty
    | row :: _ => add width .empty row.lhs (.singleton Kind.eof.id)
  corner := rows.foldr (fun row r => add width r row.lhs (.singleton row.lhs)) .empty

def passes (width : Nat) (rows : List Spot) : (count : Nat) → Estimate → Estimate
  | 0, e => e
  | count + 1, e => materialize (e.pass width rows) fun e => passes width rows count e

end Estimate

/-- Whether bounds that are found in some passes suffice. That they hold is checked, so nothing
depends on how they are found. -/
def followSetsSuffice (n width count fuel : Nat) (rows : List Spot) : Bool :=
  materialize (Estimate.start n width rows) fun e =>
    materialize (e.passes width rows count) fun e =>
    (e.bounds width).suffice n fuel rows

/-- A grammar in which FOLLOW sets keep all candidates apart has a table, with one candidate in each
cell. -/
theorem exists_table_of_followSets (hg : g.WellFormed) {width count fuel : Nat}
    (h : followSetsSuffice g.terminalCount width count fuel (rows g) = true) (mode : Mode) :
    SingleCandidates g mode ∧ ∃ t, build g mode = .ok t := by
  simp only [followSetsSuffice, Materialize.materialize_eq] at h
  have hsingle := (Bounds.suffice_of_suffice hg h).singleCandidates hg mode
  exact ⟨hsingle, exists_table_of_single hg hsingle⟩

end Reparse.Table
