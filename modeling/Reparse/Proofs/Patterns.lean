import Mathlib
import Reparse.Lexer.Nfa

/-! # What patterns mean, and that their automata read it -/
namespace Reparse.Lexer
open Data Computability

/-! ## Languages -/

/-- The texts of one byte in a range. -/
def oneByte (r : UInt8 × UInt8) : Language UInt8 := {w | ∃ b, r.1 ≤ b ∧ b ≤ r.2 ∧ w = [b]}

/-- A number of texts one after another: at least `min` and at most `max`, but never fewer than
`min`. -/
def copies (l : Language UInt8) (min : Nat) (max : Option Nat) : Language UInt8 :=
  {w | ∃ n, min ≤ n ∧ (∀ m, max = some m → n ≤ Nat.max min m) ∧ w ∈ l ^ n}

namespace Pattern

mutual
/-- The texts that match the pattern. -/
def language : Pattern → Language UInt8
  | .literal text => {(Text.ofString text).toList}
  | .oneOf set => {w | ∃ r ∈ set.ranges, w ∈ oneByte r}
  | .seq items => languageOfSeq items
  | .alt items => languageOfAlt items
  | .repeated item min max => copies (language item) min max

/-- Texts that match all patterns one after another. -/
def languageOfSeq : List Pattern → Language UInt8
  | [] => 1
  | p :: rest => language p * languageOfSeq rest

/-- Texts that match some of the patterns. -/
def languageOfAlt : List Pattern → Language UInt8
  | [] => 0
  | p :: rest => language p + languageOfAlt rest
end

end Pattern

private theorem mem_oneByte {r : UInt8 × UInt8} {w : List UInt8} :
    w ∈ oneByte r ↔ ∃ b, r.1 ≤ b ∧ b ≤ r.2 ∧ w = [b] := Iff.rfl

theorem mem_copies {l : Language UInt8} {min : Nat} {max : Option Nat} {w : List UInt8} :
    w ∈ copies l min max ↔ ∃ n, min ≤ n ∧ (∀ m, max = some m → n ≤ Nat.max min m) ∧
      w ∈ l ^ n := Iff.rfl

/-- Any number of copies. -/
theorem copies_none (l : Language UInt8) (min : Nat) : copies l min none = l ^ min * l∗ := by
  rw [Language.kstar_eq_iSup_pow, Language.mul_iSup]
  ext w
  simp only [mem_copies, Language.mem_iSup, ← pow_add]
  constructor
  · rintro ⟨n, hn, -, hw⟩
    exact ⟨n - min, by rwa [Nat.add_sub_cancel' hn]⟩
  · rintro ⟨n, hw⟩
    exact ⟨min + n, Nat.le_add_right _ _, nofun, hw⟩

/-- After the copies that have to be there, some may be left out. -/
private theorem copies_some (l : Language UInt8) (min max : Nat) :
    copies l min (some max) = l ^ min * copies l 0 (some (max - min)) := by
  ext w
  simp only [mem_copies, Language.mem_mul, Option.some.injEq, forall_eq', Nat.zero_le,
    true_and, Nat.zero_max]
  constructor
  · rintro ⟨n, hn, hmax, hw⟩
    rw [← Nat.add_sub_cancel' hn, pow_add] at hw
    obtain ⟨u, hu, v, hv, rfl⟩ := Language.mem_mul.1 hw
    have hle : n - min ≤ max - min := by
      change n ≤ Max.max min max at hmax
      omega
    exact ⟨u, hu, v, ⟨n - min, hle, hv⟩, rfl⟩
  · rintro ⟨u, hu, v, ⟨n, hn, hv⟩, rfl⟩
    refine ⟨min + n, Nat.le_add_right _ _, ?_, ?_⟩
    · change min + n ≤ Max.max min max
      omega
    · rw [pow_add]
      exact Language.append_mem_mul hu hv

theorem copies_zero (l : Language UInt8) : copies l 0 (some 0) = 1 := by
  ext w
  simp only [mem_copies, Option.some.injEq, forall_eq', Nat.zero_max, Nat.le_zero, Language.mem_one]
  constructor
  · rintro ⟨n, -, rfl, hw⟩
    simpa using hw
  · rintro rfl
    exact ⟨0, Nat.zero_le _, rfl, by simp⟩

/-- One copy fewer, or none. -/
theorem copies_succ (l : Language UInt8) (n : Nat) :
    copies l 0 (some (n + 1)) = 1 + l * copies l 0 (some n) := by
  ext w
  simp only [mem_copies, Option.some.injEq, forall_eq', Nat.zero_max,
    Language.mem_add, Language.mem_one, Language.mem_mul, Nat.zero_le, true_and]
  constructor
  · rintro ⟨m, hm, hw⟩
    cases m with
    | zero => exact .inl (by simpa using hw)
    | succ m =>
      rw [pow_succ'] at hw
      obtain ⟨u, hu, v, hv, rfl⟩ := Language.mem_mul.1 hw
      exact .inr ⟨u, hu, v, ⟨m, Nat.le_of_succ_le_succ hm, hv⟩, rfl⟩
  · rintro (rfl | ⟨u, hu, v, ⟨m, hm, hv⟩, rfl⟩)
    · exact ⟨0, Nat.zero_le _, by simp⟩
    · refine ⟨m + 1, Nat.succ_le_succ hm, ?_⟩
      rw [pow_succ']
      exact Language.append_mem_mul hu hv

/-! ## Paths -/

/-- What is read over an edge. -/
def Edge.language (e : Edge) : Language UInt8 := match e.label with
  | none => 1
  | some r => oneByte r

/-- A path along edges reads what it reads over each of them. -/
inductive Path (edge : Edge → Prop) : Nat → List UInt8 → Nat → Prop
  | nil {s : Nat} : Path edge s [] s
  | step {e : Edge} {u w : List UInt8} {t : Nat} (h : edge e) (reads : u ∈ e.language)
      (rest : Path edge e.target w t) : Path edge e.source (u ++ w) t

variable {edge edge' : Edge → Prop} {s m t : Nat} {u v w : List UInt8}

theorem Path.mono (h : ∀ e, edge e → edge' e) (hp : Path edge s w t) : Path edge' s w t := by
  induction hp with
  | nil => exact .nil
  | step he reads _ ih => exact .step (h _ he) reads ih

theorem Path.append (h : Path edge s u m) (h' : Path edge m v t) : Path edge s (u ++ v) t := by
  induction h with
  | nil => exact h'
  | step he reads _ ih =>
    rw [List.append_assoc]
    exact .step he reads (ih h')

private theorem Path.single {e : Edge} (h : edge e) (reads : u ∈ e.language) :
    Path edge e.source u e.target := by
  have hpath := Path.step h reads (Path.nil : Path edge e.target [] e.target)
  rwa [List.append_nil] at hpath

theorem Path.silent (h : edge ⟨s, none, m⟩) (rest : Path edge m w t) : Path edge s w t :=
  .step (e := ⟨s, none, m⟩) (u := []) h rfl rest

/-- What can be read on the way to `stop`. -/
def reads (edge : Edge → Prop) (stop s : Nat) : Language UInt8 := {w | Path edge s w stop}

theorem mem_reads : w ∈ reads edge t s ↔ Path edge s w t := Iff.rfl

theorem one_le_reads (edge : Edge → Prop) (s : Nat) : 1 ≤ reads edge s s := by
  rintro w rfl
  exact Path.nil

/-- Languages of states that contain what is read over an edge in front of the language of its
target. -/
def Respects (edge : Edge → Prop) (r : Nat → Language UInt8) : Prop :=
  ∀ e, edge e → e.language * r e.target ≤ r e.source

theorem respects_reads (edge : Edge → Prop) (stop : Nat) : Respects edge (reads edge stop) := by
  rintro e he w ⟨u, hu, v, hv, rfl⟩
  exact Path.step he hu hv

private theorem Respects.mul {r : Nat → Language UInt8} (h : Respects edge r) (l : Language UInt8) :
    Respects edge fun s => r s * l := by
  intro e he
  rw [← mul_assoc]
  exact mul_le_mul_left (h e he) l

/-- Paths stay within such languages. -/
theorem Respects.reads_le {r : Nat → Language UInt8} (h : Respects edge r) (ht : 1 ≤ r t) :
    reads edge t s ≤ r s := by
  intro w hw
  induction hw with
  | nil => exact ht rfl
  | step he hu _ ih => exact h _ he (Language.append_mem_mul hu (ih ht))

private theorem Path.eq_of_no_edge (h : ∀ e, edge e → e.source ≠ s) (hp : Path edge s w t) :
    w = [] ∧ s = t := by
  cases hp with
  | nil => exact ⟨rfl, rfl⟩
  | step he _ _ => exact absurd rfl (h _ he)

/-! ## Fragments -/

/-- Edges from `start` to `stop` over new states that read a language. -/
structure Fragment (start stop fresh : Nat) (piece : Nat × List Edge) (l : Language UInt8) :
    Prop where
  le : fresh ≤ piece.1
  sources : ∀ e ∈ piece.2, e.source = start ∨ fresh ≤ e.source ∧ e.source < piece.1
  targets : ∀ e ∈ piece.2, e.target = stop ∨ fresh ≤ e.target ∧ e.target < piece.1
  reads : reads (· ∈ piece.2) stop start = l

variable {start stop fresh : Nat} {p p₁ p₂ : Nat × List Edge} {l l₁ l₂ : Language UInt8}

theorem Fragment.reads_stop (h : Fragment start stop fresh p l) (hstop : stop < fresh)
    (hne : start ≠ stop) :
    Lexer.reads (· ∈ p.2) stop stop = 1 := by
  refine le_antisymm (fun w hw => ?_) (one_le_reads _ _)
  refine (Path.eq_of_no_edge (fun e he hsource => ?_) hw).1
  rcases h.sources e he with hs | ⟨hs, -⟩
  · exact hne (hs.symm.trans hsource)
  · omega

/-- All edges lead from the start to the stop. -/
theorem fragment_direct {edges : List Edge} (hne : start ≠ stop)
    (h : ∀ e ∈ edges, e.source = start ∧ e.target = stop)
    (hl : ∀ w, w ∈ l ↔ ∃ e ∈ edges, w ∈ e.language) :
    Fragment start stop fresh (fresh, edges) l := by
  refine ⟨Nat.le_refl _, fun e he => .inl (h e he).1, fun e he => .inl (h e he).2,
    le_antisymm ?_ ?_⟩
  · have hrespects : Respects (· ∈ edges) fun s =>
        if s = start then l else if s = stop then 1 else 0 := by
      intro e he
      obtain ⟨hsource, htarget⟩ := h e he
      simp only [hsource, htarget, if_true, if_neg hne.symm, mul_one]
      exact fun w hw => (hl w).2 ⟨e, he, hw⟩
    have hle := hrespects.reads_le (s := start) (t := stop) (by simp [hne.symm])
    simpa using hle
  · intro w hw
    obtain ⟨e, he, hw⟩ := (hl w).1 hw
    obtain ⟨rfl, rfl⟩ := h e he
    exact Path.single he hw

theorem fragment_silent (hne : start ≠ stop) :
    Fragment start stop fresh (fresh, [⟨start, none, stop⟩]) 1 :=
  fragment_direct hne (by simp) (by simp [Edge.language])

/-- One fragment after another. -/
theorem Fragment.seq (hstart : start < fresh) (hstop : stop < fresh) (hne : start ≠ stop)
    (h₁ : Fragment start fresh (fresh + 1) p₁ l₁) (h₂ : Fragment fresh stop p₁.1 p₂ l₂) :
    Fragment start stop fresh (p₂.1, p₁.2 ++ p₂.2) (l₁ * l₂) := by
  have hle₁ := h₁.le
  have hle₂ := h₂.le
  refine ⟨by omega, fun e he => ?_, fun e he => ?_, le_antisymm ?_ ?_⟩
  · rcases List.mem_append.1 he with he | he
    · have := h₁.sources e he
      omega
    · have := h₂.sources e he
      omega
  · rcases List.mem_append.1 he with he | he
    · have := h₁.targets e he
      omega
    · have := h₂.targets e he
      omega
  · -- states of the first part still have the second one in front of them
    have hrespects : Respects (· ∈ p₁.2 ++ p₂.2) fun s => if s = start ∨ fresh < s ∧ s < p₁.1
        then Lexer.reads (· ∈ p₁.2) fresh s * l₂ else Lexer.reads (· ∈ p₂.2) stop s := by
      intro e he
      rcases List.mem_append.1 he with he | he
      · have hstep := (respects_reads (· ∈ p₁.2) fresh).mul l₂ e he
        have hsource := h₁.sources e he
        simp only [if_pos (show e.source = start ∨ fresh < e.source ∧ e.source < p₁.1 by omega)]
        rcases h₁.targets e he with htarget | htarget
        · rw [if_neg (by omega), htarget, h₂.reads]
          simp only [htarget, h₁.reads_stop (show fresh < fresh + 1 by omega)
            (show start ≠ fresh by omega), one_mul] at hstep
          exact hstep
        · rw [if_pos (by omega)]
          exact hstep
      · have hsource := h₂.sources e he
        have htarget := h₂.targets e he
        simp only [if_neg (show ¬ (e.source = start ∨ fresh < e.source ∧ e.source < p₁.1) by omega),
          if_neg (show ¬ (e.target = start ∨ fresh < e.target ∧ e.target < p₁.1) by omega)]
        exact respects_reads (· ∈ p₂.2) stop e he
    have hle := hrespects.reads_le (s := start) (t := stop)
      (by rw [if_neg (by omega)]; exact one_le_reads _ _)
    rwa [if_pos (.inl rfl), h₁.reads] at hle
  · rw [← h₁.reads, ← h₂.reads]
    rintro w ⟨u, hu, v, hv, rfl⟩
    exact (Path.mono (fun e => List.mem_append_left _) hu).append
      (Path.mono (fun e => List.mem_append_right _) hv)

/-- A fragment that may be skipped. -/
theorem Fragment.skip (hstop : stop < fresh) (hne : start ≠ stop) (hstart : start < fresh)
    (h : Fragment start stop fresh p l) :
    Fragment start stop fresh (p.1, ⟨start, none, stop⟩ :: p.2) (1 + l) := by
  refine ⟨h.le, fun e he => ?_, fun e he => ?_, le_antisymm ?_ ?_⟩
  · rcases List.mem_cons.1 he with rfl | he
    · exact .inl rfl
    · exact h.sources e he
  · rcases List.mem_cons.1 he with rfl | he
    · exact .inl rfl
    · exact h.targets e he
  · have hrespects : Respects (· ∈ (⟨start, none, stop⟩ : Edge) :: p.2) fun s =>
        if s = start then 1 + l else Lexer.reads (· ∈ p.2) stop s := by
      intro e he
      rcases List.mem_cons.1 he with rfl | he
      · simp only [if_true, if_neg hne.symm, h.reads_stop hstop hne, Edge.language, mul_one]
        exact le_sup_left
      · have htarget := h.targets e he
        have hstep := respects_reads (· ∈ p.2) stop e he
        simp only [if_neg (show ¬ e.target = start by omega)]
        split
        · next hsource =>
          rw [hsource, h.reads] at hstep
          exact hstep.trans le_sup_right
        · exact hstep
    have hle := hrespects.reads_le (s := start) (t := stop)
      (by rw [if_neg hne.symm]; exact one_le_reads _ _)
    rwa [if_pos rfl] at hle
  · refine sup_le ?_ ?_
    · rintro w rfl
      exact Path.silent List.mem_cons_self .nil
    · rw [← h.reads]
      exact fun w hw => Path.mono (fun e => List.mem_cons_of_mem _) hw

/-- A fragment with states of its own next to another. -/
theorem Fragment.par (hstart : start < fresh) (hstop : stop < fresh) (hne : start ≠ stop)
    (h₁ : Fragment fresh (fresh + 1) (fresh + 2) p₁ l₁) (h₂ : Fragment start stop p₁.1 p₂ l₂) :
    Fragment start stop fresh
      (p₂.1, ⟨start, none, fresh⟩ :: ⟨fresh + 1, none, stop⟩ :: (p₁.2 ++ p₂.2)) (l₁ + l₂) := by
  have hle₁ := h₁.le
  have hle₂ := h₂.le
  have hcases {e : Edge} (he : e ∈ (⟨start, none, fresh⟩ : Edge) ::
      ⟨fresh + 1, none, stop⟩ :: (p₁.2 ++ p₂.2)) : e = ⟨start, none, fresh⟩ ∨
      e = ⟨fresh + 1, none, stop⟩ ∨ e ∈ p₁.2 ∨ e ∈ p₂.2 := by
    simpa only [List.mem_cons, List.mem_append] using he
  refine ⟨by omega, fun e he => ?_, fun e he => ?_, le_antisymm ?_ ?_⟩
  · rcases hcases he with rfl | rfl | he | he
    · exact .inl rfl
    · exact .inr ⟨Nat.le_succ _, by dsimp only; omega⟩
    · have := h₁.sources e he
      omega
    · have := h₂.sources e he
      omega
  · rcases hcases he with rfl | rfl | he | he
    · exact .inr ⟨Nat.le_refl _, by dsimp only; omega⟩
    · exact .inl rfl
    · have := h₁.targets e he
      omega
    · have := h₂.targets e he
      omega
  · have hrespects : Respects
        (· ∈ (⟨start, none, fresh⟩ : Edge) :: ⟨fresh + 1, none, stop⟩ :: (p₁.2 ++ p₂.2)) fun s =>
        if s = start then l₁ + l₂
        else if fresh ≤ s ∧ s < p₁.1 then Lexer.reads (· ∈ p₁.2) (fresh + 1) s
        else Lexer.reads (· ∈ p₂.2) stop s := by
      intro e he
      rcases hcases he with rfl | rfl | he | he
      · simp only [if_true, if_neg (show ¬ fresh = start by omega),
          if_pos (show fresh ≤ fresh ∧ fresh < p₁.1 by omega), h₁.reads, Edge.language, one_mul]
        exact le_sup_left
      · simp only [if_neg hne.symm, if_neg (show ¬ (fresh ≤ stop ∧ stop < p₁.1) by omega),
          h₂.reads_stop (by omega) hne, if_neg (show ¬ fresh + 1 = start by omega),
          if_pos (show fresh ≤ fresh + 1 ∧ fresh + 1 < p₁.1 by omega), Edge.language, mul_one]
        exact one_le_reads _ _
      · have hsource := h₁.sources e he
        have htarget := h₁.targets e he
        simp only [if_neg (show ¬ e.target = start by omega),
          if_pos (show fresh ≤ e.target ∧ e.target < p₁.1 by omega),
          if_neg (show ¬ e.source = start by omega),
          if_pos (show fresh ≤ e.source ∧ e.source < p₁.1 by omega)]
        exact respects_reads (· ∈ p₁.2) (fresh + 1) e he
      · have hsource := h₂.sources e he
        have htarget := h₂.targets e he
        have hstep := respects_reads (· ∈ p₂.2) stop e he
        simp only [if_neg (show ¬ e.target = start by omega),
          if_neg (show ¬ (fresh ≤ e.target ∧ e.target < p₁.1) by omega)]
        rcases hsource with hsource | hsource
        · rw [if_pos hsource]
          rw [hsource, h₂.reads] at hstep
          exact hstep.trans le_sup_right
        · rw [if_neg (by omega), if_neg (by omega)]
          exact hstep
    have hle := hrespects.reads_le (s := start) (t := stop)
      (by rw [if_neg hne.symm, if_neg (by omega)]; exact one_le_reads _ _)
    rwa [if_pos rfl] at hle
  · refine sup_le ?_ ?_
    · rw [← h₁.reads]
      intro w hw
      have hinner : Path (· ∈ (⟨start, none, fresh⟩ : Edge) :: ⟨fresh + 1, none, stop⟩ ::
          (p₁.2 ++ p₂.2)) fresh w (fresh + 1) :=
        Path.mono (fun e he => by simp [he]) hw
      have hend : Path (· ∈ (⟨start, none, fresh⟩ : Edge) :: ⟨fresh + 1, none, stop⟩ ::
          (p₁.2 ++ p₂.2)) (fresh + 1) [] stop :=
        Path.silent (by simp) .nil
      have hpath := Path.silent (s := start) (by simp) (hinner.append hend)
      rwa [List.append_nil] at hpath
    · rw [← h₂.reads]
      exact fun w hw => Path.mono (fun e he => by simp [he]) hw

/-- A fragment that is left and entered any number of times. -/
theorem Fragment.loop (hstart : start < fresh) (hstop : stop < fresh) (hne : start ≠ stop)
    (h : Fragment fresh (fresh + 1) (fresh + 2) p l) :
    Fragment start stop fresh
      (p.1, ⟨start, none, fresh⟩ :: ⟨start, none, stop⟩ :: ⟨fresh + 1, none, fresh⟩ ::
      ⟨fresh + 1, none, stop⟩ :: p.2) l∗ := by
  have hle := h.le
  generalize hedges : (⟨start, none, fresh⟩ : Edge) :: ⟨start, none, stop⟩ ::
    ⟨fresh + 1, none, fresh⟩ :: ⟨fresh + 1, none, stop⟩ :: p.2 = edges
  have hcases {e : Edge} (he : e ∈ edges) : e = ⟨start, none, fresh⟩ ∨ e = ⟨start, none, stop⟩ ∨
      e = ⟨fresh + 1, none, fresh⟩ ∨ e = ⟨fresh + 1, none, stop⟩ ∨ e ∈ p.2 := by
    rw [← hedges] at he
    simpa only [List.mem_cons] using he
  refine ⟨by omega, fun e he => ?_, fun e he => ?_, le_antisymm ?_ ?_⟩
  · rcases hcases he with rfl | rfl | rfl | rfl | he
    · exact .inl rfl
    · exact .inl rfl
    · exact .inr ⟨Nat.le_succ _, by dsimp only; omega⟩
    · exact .inr ⟨Nat.le_succ _, by dsimp only; omega⟩
    · have := h.sources e he
      omega
  · rcases hcases he with rfl | rfl | rfl | rfl | he
    · exact .inr ⟨Nat.le_refl _, by dsimp only; omega⟩
    · exact .inl rfl
    · exact .inr ⟨Nat.le_refl _, by dsimp only; omega⟩
    · exact .inl rfl
    · have := h.targets e he
      omega
  · -- inside, whatever is left of one copy stands before any number of copies
    have hinside : l * l∗ ≤ Lexer.reads (· ∈ p.2) (fresh + 1) (fresh + 1) * l∗ :=
      mul_kstar_le_kstar.trans
        (by simpa using mul_le_mul_left (one_le_reads (· ∈ p.2) (fresh + 1)) l∗)
    have hrespects : Respects (· ∈ edges) fun s => if s = start then l∗ else if s = stop then 1
        else Lexer.reads (· ∈ p.2) (fresh + 1) s * l∗ := by
      intro e he
      rcases hcases he with rfl | rfl | rfl | rfl | he
      · simp only [if_true, if_neg (show ¬ fresh = start by omega),
          if_neg (show ¬ fresh = stop by omega), h.reads, Edge.language, one_mul]
        exact mul_kstar_le_kstar
      · simp only [if_true, if_neg hne.symm, Edge.language, one_mul]
        exact one_le_kstar
      · simp only [if_neg (show ¬ fresh = start by omega), if_neg (show ¬ fresh = stop by omega),
          h.reads, if_neg (show ¬ fresh + 1 = start by omega),
          if_neg (show ¬ fresh + 1 = stop by omega), Edge.language, one_mul]
        exact hinside
      · simp only [if_true, if_neg hne.symm, if_neg (show ¬ fresh + 1 = start by omega),
          if_neg (show ¬ fresh + 1 = stop by omega), Edge.language, one_mul]
        exact one_le_kstar.trans
          (by simpa using mul_le_mul_left (one_le_reads (· ∈ p.2) (fresh + 1)) l∗)
      · have hsource := h.sources e he
        have htarget := h.targets e he
        simp only [if_neg (show ¬ e.source = start by omega),
          if_neg (show ¬ e.source = stop by omega), if_neg (show ¬ e.target = start by omega),
          if_neg (show ¬ e.target = stop by omega)]
        exact (respects_reads (· ∈ p.2) (fresh + 1)).mul l∗ e he
    have hreads := hrespects.reads_le (s := start) (t := stop) (by rw [if_neg hne.symm, if_pos rfl])
    rwa [if_pos rfl] at hreads
  · have hfirst : (⟨start, none, fresh⟩ : Edge) ∈ edges := by simp [← hedges]
    have hskip : (⟨start, none, stop⟩ : Edge) ∈ edges := by simp [← hedges]
    have hagain : (⟨fresh + 1, none, fresh⟩ : Edge) ∈ edges := by simp [← hedges]
    have hlast : (⟨fresh + 1, none, stop⟩ : Edge) ∈ edges := by simp [← hedges]
    have honce {u v : List UInt8} (hu : u ∈ l) (hv : Path (· ∈ edges) (fresh + 1) v stop) :
        Path (· ∈ edges) fresh (u ++ v) stop := by
      rw [← h.reads] at hu
      exact (Path.mono (fun e he => by simp [← hedges, he]) hu).append hv
    have hrest : l∗ ≤ Lexer.reads (· ∈ edges) stop (fresh + 1) := by
      apply kstar_le_of_mul_le_right
      · rintro w rfl
        exact Path.silent hlast .nil
      · rintro w ⟨u, hu, v, hv, rfl⟩
        exact Path.silent hagain (honce hu hv)
    rw [← one_add_mul_kstar]
    refine sup_le ?_ ?_
    · rintro w rfl
      exact Path.silent hskip .nil
    · rintro w ⟨u, hu, v, hv, rfl⟩
      exact Path.silent hfirst (honce hu (hrest hv))

/-! ## Wirings -/

/-- Wherever it is put, the wiring reads the language. -/
def Wires (w : Wiring) (l : Language UInt8) : Prop :=
  ∀ start stop fresh : Nat, start < fresh → stop < fresh → start ≠ stop →
    Fragment start stop fresh (w start stop fresh) l

namespace Pattern

private theorem wires_bytes (bytes : List UInt8) : Wires (wireBytes bytes) {bytes} := by
  induction bytes with
  | nil => exact fun _ _ _ _ _ hne => fragment_silent hne
  | cons b rest ih =>
    intro start stop fresh hstart hstop hne
    have hbyte (stop fresh : Nat) (hne : start ≠ stop) :
        Fragment start stop fresh (fresh, [⟨start, some (b, b), stop⟩]) {[b]} := by
      refine fragment_direct hne (by simp) fun w => ?_
      simp only [List.mem_singleton, exists_eq_left, Edge.language, mem_oneByte]
      constructor
      · rintro rfl
        exact ⟨b, UInt8.le_refl _, UInt8.le_refl _, rfl⟩
      · rintro ⟨c, hlo, hhi, rfl⟩
        rw [UInt8.le_antisymm hhi hlo]
        rfl
    cases rest with
    | nil => exact hbyte stop fresh hne
    | cons c rest =>
      have hseq := Fragment.seq hstart hstop hne (hbyte fresh (fresh + 1) (by omega))
        (ih fresh stop (fresh + 1) (by omega) (by omega) (by omega))
      have hword : ({b :: c :: rest} : Language UInt8) = {[b]} * {c :: rest} := by
        ext w
        rw [Language.mem_mul]
        constructor
        · rintro rfl
          exact ⟨[b], rfl, c :: rest, rfl, rfl⟩
        · rintro ⟨_, rfl, _, rfl, rfl⟩
          rfl
      rw [hword]
      exact hseq

variable {w tail : Wiring} {lw lt : Language UInt8}

private theorem wires_copies (hw : Wires w lw) (ht : Wires tail lt) (n : Nat) :
    Wires (wireCopies w tail n) (lw ^ n * lt) := by
  induction n with
  | zero =>
    rw [pow_zero, one_mul]
    exact ht
  | succ n ih =>
    intro start stop fresh hstart hstop hne
    have h₁ := hw start fresh (fresh + 1) (by omega) (by omega) (by omega)
    have hle := h₁.le
    rw [pow_succ', mul_assoc]
    exact Fragment.seq hstart hstop hne h₁ (ih _ _ _ (by omega) (by omega) (by omega))

private theorem wires_atMost (hw : Wires w lw) (n : Nat) :
    Wires (wireAtMost w n) (copies lw 0 (some n)) := by
  induction n with
  | zero =>
    rw [copies_zero]
    exact fun _ _ _ _ _ hne => fragment_silent hne
  | succ n ih =>
    intro start stop fresh hstart hstop hne
    have h₁ := hw start fresh (fresh + 1) (by omega) (by omega) (by omega)
    have hle := h₁.le
    rw [copies_succ]
    exact Fragment.skip hstop hne hstart
      (Fragment.seq hstart hstop hne h₁ (ih _ _ _ (by omega) (by omega) (by omega)))

private theorem wires_loop (hw : Wires w lw) : Wires (wireLoop w) lw∗ :=
  fun _ _ _ hstart hstop hne =>
    Fragment.loop hstart hstop hne (hw _ _ _ (by omega) (by omega) (by omega))

mutual
/-- The automaton of a pattern reads the texts that match it. -/
theorem wires_wire : (p : Pattern) → Wires p.wire p.language
  | .literal text => by
    rw [wire, language]
    exact wires_bytes _
  | .oneOf set => by
    intro start stop fresh hstart hstop hne
    rw [wire, language]
    refine fragment_direct hne (fun e he => ?_) fun w => ?_
    · obtain ⟨r, -, rfl⟩ := List.mem_map.1 he
      exact ⟨rfl, rfl⟩
    · rw [show (∃ e ∈ set.ranges.map fun r => (⟨start, some r, stop⟩ : Edge), w ∈ e.language) ↔
        ∃ r ∈ set.ranges, w ∈ oneByte r by simp [Edge.language]]
      rfl
  | .seq items => by
    rw [wire, language]
    exact wires_wireSeq items
  | .alt items => by
    rw [wire, language]
    exact wires_wireAlt items
  | .repeated item min max => by
    have hitem := wires_wire item
    rw [language]
    cases max with
    | none =>
      rw [copies_none, wire]
      exact wires_copies hitem (wires_loop hitem) min
    | some max =>
      rw [copies_some, wire]
      exact wires_copies hitem (wires_atMost hitem _) min

private theorem wires_wireSeq : (items : List Pattern) → Wires (wireSeq items) (languageOfSeq items)
  | [] => fun _ _ _ _ _ hne => fragment_silent hne
  | p :: rest => by
    intro start stop fresh hstart hstop hne
    have h₁ := wires_wire p start fresh (fresh + 1) (by omega) (by omega) (by omega)
    have hle := h₁.le
    exact Fragment.seq hstart hstop hne h₁
      (wires_wireSeq rest _ _ _ (by omega) (by omega) (by omega))

private theorem wires_wireAlt : (items : List Pattern) → Wires (wireAlt items) (languageOfAlt items)
  | [] => fun _ _ _ _ _ hne => fragment_direct hne nofun fun w => by simp [languageOfAlt]
  | p :: rest => by
    intro start stop fresh hstart hstop hne
    have h₁ := wires_wire p fresh (fresh + 1) (fresh + 2) (by omega) (by omega) (by omega)
    have hle := h₁.le
    exact Fragment.par hstart hstop hne h₁ (wires_wireAlt rest _ _ _ (by omega) (by omega) hne)
end

end Pattern
end Reparse.Lexer
