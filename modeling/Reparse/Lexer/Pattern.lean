import Reparse.Lexer.ByteSet

/-! # Regular patterns over bytes -/
namespace Reparse.Lexer

inductive Pattern where
  | literal (text : String)
  | oneOf (set : ByteSet)
  | seq (items : List Pattern)
  | alt (items : List Pattern)
  /-- At least `min` copies and at most `max`; a `max` below `min` means exactly `min`. -/
  | repeated (item : Pattern) (min : Nat) (max : Option Nat)
deriving Inhabited, Hashable

namespace Pattern

mutual
def decEq : (p q : Pattern) → Decidable (p = q)
  | .literal s, .literal t => if h : s = t then .isTrue (by rw [h]) else .isFalse (by simp [h])
  | .oneOf s, .oneOf t => if h : s = t then .isTrue (by rw [h]) else .isFalse (by simp [h])
  | .seq ps, .seq qs => match decEqList ps qs with
    | .isTrue h => .isTrue (by rw [h])
    | .isFalse h => .isFalse (by simp [h])
  | .alt ps, .alt qs => match decEqList ps qs with
    | .isTrue h => .isTrue (by rw [h])
    | .isFalse h => .isFalse (by simp [h])
  | .repeated p m n, .repeated q m' n' => match decEq p q with
    | .isTrue h =>
      if h' : m = m' ∧ n = n' then .isTrue (by simp [h, h'])
      else .isFalse fun e => h' (by injection e with _ hm hn; exact ⟨hm, hn⟩)
    | .isFalse h => .isFalse (by simp [h])
  | .literal _, .oneOf _ | .literal _, .seq _ | .literal _, .alt _ | .literal _, .repeated ..
  | .oneOf _, .literal _ | .oneOf _, .seq _ | .oneOf _, .alt _ | .oneOf _, .repeated ..
  | .seq _, .literal _ | .seq _, .oneOf _ | .seq _, .alt _ | .seq _, .repeated ..
  | .alt _, .literal _ | .alt _, .oneOf _ | .alt _, .seq _ | .alt _, .repeated ..
  | .repeated .., .literal _ | .repeated .., .oneOf _ | .repeated .., .seq _
  | .repeated .., .alt _ => .isFalse nofun

def decEqList : (ps qs : List Pattern) → Decidable (ps = qs)
  | [], [] => .isTrue rfl
  | [], _ :: _ | _ :: _, [] => .isFalse nofun
  | p :: ps, q :: qs => match decEq p q, decEqList ps qs with
    | .isTrue h, .isTrue hs => .isTrue (by rw [h, hs])
    | .isFalse h, _ => .isFalse (by simp [h])
    | _, .isFalse hs => .isFalse (by simp [hs])
end

instance : DecidableEq Pattern := decEq

def star (p : Pattern) : Pattern := .repeated p 0 none
def plus (p : Pattern) : Pattern := .repeated p 1 none
def optional (p : Pattern) : Pattern := .repeated p 0 (some 1)
def words (ws : List String) : Pattern := .alt (ws.map .literal)

mutual
/-- Whether the empty text matches. -/
def matchesEmpty : Pattern → Bool
  | .literal text => text.isEmpty
  | .oneOf _ => false
  | .seq items => allMatchEmpty items
  | .alt items => anyMatchesEmpty items
  | .repeated item min _ => min == 0 || matchesEmpty item

def allMatchEmpty : List Pattern → Bool
  | [] => true
  | p :: rest => matchesEmpty p && allMatchEmpty rest

def anyMatchesEmpty : List Pattern → Bool
  | [] => false
  | p :: rest => matchesEmpty p || anyMatchesEmpty rest
end

/-- The text of a pattern that is a plain literal. -/
def literal? : Pattern → Option String
  | .literal text => some text
  | _ => none

end Pattern
end Reparse.Lexer
