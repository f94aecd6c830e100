import Mathlib.Data.List.Basic
import Reparse.Json.Record
import Reparse.Proofs.Scanning

/-! # Typed parts of documents can be read back -/
namespace Reparse.Json

/-- What is written for `a` is a proper document part, and it is read as `a`. -/
structure RoundTrips {α : Type} (write : α → Value) (read : Value → Option α) (a : α) : Prop where
  plain : Plain (write a)
  back : read (write a) = some a

variable {α β : Type} {write : α → Value} {read : Value → Option α} {write' : β → Value}
  {read' : Value → Option β}

/-! ## Numbers, strings and truth values -/

theorem ofNat_eq (n : Nat) : ofNat n = ofInt n := rfl

theorem plain_ofNat (n : Nat) : Plain (ofNat n) := .integer n

theorem nat?_ofNat {limit n : Nat} (h : n ≤ limit) : nat? limit (ofNat n) = some n := by
  have hrange : 0 ≤ (n : Int) ∧ (n : Int) ≤ limit := ⟨Int.natCast_nonneg n, Int.ofNat_le.2 h⟩
  simp [nat?, integer?_ofNat, hrange]

theorem roundTrips_nat {limit n : Nat} (h : n ≤ limit) : RoundTrips ofNat (nat? limit) n :=
  ⟨plain_ofNat n, nat?_ofNat h⟩

theorem roundTrips_int {n : Int} (h : -2147483648 ≤ n ∧ n ≤ 2147483647) :
    RoundTrips ofInt int32? n where
  plain := .integer n
  back := by simp [int32?, integer?_ofInt, h]

theorem roundTrips_string (s : String) : RoundTrips ofString string? s :=
  ⟨.string s, unescape?_escape s⟩

theorem roundTrips_bool (b : Bool) : RoundTrips ofBool bool? b := ⟨.bool b, rfl⟩

/-! ## Arrays, pairs and options -/

private theorem mapM_map_eq_some {xs : List α} {f : α → β} {g : β → Option α}
    (h : ∀ x ∈ xs, g (f x) = some x) :
    (xs.map f).mapM g = some xs := by
  induction xs with
  | nil => rfl
  | cons x rest ih =>
    rw [List.map_cons, List.mapM_cons, h x List.mem_cons_self,
      ih fun y hy => h y (List.mem_cons_of_mem _ hy)]
    rfl

theorem RoundTrips.array {xs : Array α} (h : ∀ x ∈ xs, RoundTrips write read x) :
    RoundTrips (ofArray write) (array? read) xs where
  plain := by
    refine .array fun v hv => ?_
    obtain ⟨x, hx, rfl⟩ := List.mem_map.1 hv
    exact (h x (Array.mem_toList_iff.1 hx)).plain
  back := by
    simp only [ofArray, array?]
    rw [mapM_map_eq_some fun x hx => (h x (Array.mem_toList_iff.1 hx)).back]
    rfl

theorem RoundTrips.pair {p : α × β} (h : RoundTrips write read p.1)
    (h' : RoundTrips write' read' p.2) :
    RoundTrips (ofPair write write') (pair? read read') p where
  plain := by
    refine .array fun v hv => ?_
    simp only [List.mem_cons, List.not_mem_nil, or_false] at hv
    rcases hv with rfl | rfl
    · exact h.plain
    · exact h'.plain
  back := by simp [ofPair, pair?, h.back, h'.back]

/-- An option can be told from null if what is written for its value can. -/
theorem RoundTrips.option {o : Option α} (hnull : ∀ a, write a ≠ .null)
    (h : ∀ a, o = some a → RoundTrips write read a) :
    RoundTrips (ofOption write) (option? read) o := by
  cases o with
  | none => exact ⟨.null, rfl⟩
  | some a =>
    refine ⟨(h a rfl).plain, ?_⟩
    have hother : option? read (write a) = (read (write a)).map some := by
      unfold option?
      split
      · next heq => exact absurd heq (hnull a)
      · rfl
    rw [ofOption, hother, (h a rfl).back]
    rfl

theorem ofNat_ne_null (n : Nat) : ofNat n ≠ .null := nofun

/-! ## Records -/

theorem plain_ofMembers {members : List (String × Value)} (h : members.Forall fun m => Plain m.2) :
    Plain (ofMembers members) := by
  rw [List.forall_iff_forall_mem] at h
  refine .object (fun m hm => ?_) fun m hm => ?_
  · obtain ⟨p, -, rfl⟩ := List.mem_map.1 hm
    exact ⟨p.1, rfl⟩
  · obtain ⟨p, hp, rfl⟩ := List.mem_map.1 hm
    exact h p hp

/-- The one member of a name, or none. -/
private theorem filter_name {members : List (String × Value)} (h : (members.map (·.1)).Nodup)
    (name : String) :
    members.filter (·.1 == name) = ((members.lookup name).map (name, ·)).toList := by
  induction members with
  | nil => rfl
  | cons m rest ih =>
    obtain ⟨key, v⟩ := m
    rw [List.map_cons, List.nodup_cons] at h
    rw [List.filter_cons, List.lookup_cons, ih h.2]
    by_cases hkey : key = name
    · subst hkey
      have hnone : rest.lookup key = none := by
        rw [List.lookup_eq_none_iff]
        intro p hp
        simpa using fun heq => h.1 (List.mem_map.2 ⟨p, hp, heq.symm⟩)
      simp [hnone]
    · have hne : (name == key) = false := by simpa using fun heq => hkey heq.symm
      simp [hkey, hne]

theorem record?_ofMembers {members : List (String × Value)} (h : (members.map (·.1)).Nodup)
    (names : List String) :
    record? names (ofMembers members) = some (names.map fun name => members.lookup name) := by
  have hkeyed : ((members.map fun m => (escape m.1, m.2)).mapM fun m =>
      (unescape? m.1).map (·, m.2)) = some members :=
    mapM_map_eq_some fun m _ => by simp [unescape?_escape]
  unfold record? ofMembers
  dsimp only
  rw [hkeyed, Option.bind_eq_bind, Option.bind_some]
  induction names with
  | nil => rfl
  | cons name rest ih =>
    rw [List.mapM_cons, ih, filter_name h, List.map_cons]
    cases members.lookup name with
    | none => rfl
    | some v => rfl

private theorem lookup_of_mem {members : List (String × Value)} (h : (members.map (·.1)).Nodup)
    {m : String × Value} (hm : m ∈ members) : members.lookup m.1 = some m.2 := by
  obtain ⟨before, after, rfl⟩ := List.append_of_mem hm
  refine List.lookup_eq_some_iff.2 ⟨before, after, rfl, fun p hp => ?_⟩
  rw [List.map_append, List.map_cons, List.nodup_append] at h
  have hne := h.2.2 p.1 (List.mem_map_of_mem hp) m.1 List.mem_cons_self
  simpa using hne.symm

/-- All members of a record, by their own names. -/
theorem record?_own {members : List (String × Value)} {names : List String}
    (hnames : members.map (·.1) = names) (h : names.Nodup) :
    record? names (ofMembers members) = some (members.map fun m => some m.2) := by
  rw [← hnames] at h ⊢
  rw [record?_ofMembers h, List.map_map]
  exact congrArg some (List.map_congr_left fun m hm => lookup_of_mem h hm)

end Reparse.Json
