import Reparse.SyntaxTree.Basic

/-! # Trees as S-expressions -/
namespace Reparse.SyntaxTree

/-- A field name in front of what it names. -/
def fieldLabel (l : Language) (field : Option Field) : String :=
  match field.bind l.fieldName? with
  | some name => name ++ ": "
  | none => ""

/-- Text for one event of a walk: nodes, and tokens that are visible and named. -/
def sexpVisit (l : Language) (text : String) : Tree.Visit → String
  | .enter field (.node info _) =>
    let text := if text.isEmpty then text else text ++ " " ++ fieldLabel l field
    text ++ "(" ++ l.kindName info.kind
  | .enter field (.leaf leaf) =>
    if l.isVisible leaf.kind && l.isNamed leaf.kind then
      text ++ " " ++ fieldLabel l field ++ "(" ++ l.kindName leaf.kind ++ ")"
    else text
  | .leave _ => text ++ ")"

/-- The tree as an S-expression with field names. -/
def sexp (t : SyntaxTree) : String := t.root.walk (sexpVisit t.language) ""

end Reparse.SyntaxTree
