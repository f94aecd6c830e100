/-! # Identifiers of grammar symbols and fields -/
namespace Reparse

/-- A grammar symbol. Terminals come first, beginning with `eof` and `error`; nonterminals
follow. -/
structure Kind where
  id : Nat
deriving DecidableEq, Hashable, Inhabited

/-- Identifiers are 16 bits wide; symbols beyond share the last one. -/
def maxId : Nat := 65535

namespace Kind

/-- End of input. It is in no tree. -/
def eof : Kind := ⟨0⟩
/-- Error nodes and unrecognized bytes. -/
def error : Kind := ⟨1⟩

def ofNat (n : Nat) : Kind := ⟨min n maxId⟩
def isError (k : Kind) : Bool := k == error

def debugText (k : Kind) : String :=
  if k = eof then "SyntaxKind(END)"
  else if k = error then "SyntaxKind(ERROR)"
  else s!"SyntaxKind({k.id})"

instance : Ord Kind := ⟨fun a b => compare a.id b.id⟩

end Kind

/-- A named role of a child, such as `name` or `body`. -/
structure Field where
  id : Nat
deriving DecidableEq, Hashable, Inhabited

def Field.ofNat (n : Nat) : Field := ⟨min n maxId⟩
def Field.debugText (f : Field) : String := s!"FieldId({f.id})"

end Reparse
