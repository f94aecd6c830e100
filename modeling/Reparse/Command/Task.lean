import Reparse.Command.Arguments
import Reparse.Command.Files
import Reparse.Huff.Grammar
import Reparse.Language.Artifact
import Reparse.Parse.Basic
import Reparse.SyntaxTree.Errors
import Reparse.SyntaxTree.Sexp

/-! # What the commands print and write -/
namespace Reparse.Command
open Text
open Json (Value ofMembers ofNat)

inductive Failure where
  | read (path : String) (error : FileError)
  | write (error : FileError)
  | grammar (error : Grammar.Error)

def Failure.message : Failure → String
  | .read path e => s!"cannot read {path}: {e.message}"
  | .write e => s!"cannot write output: {e.message}"
  | .grammar e => e.message

/-- The end of a task: what it printed and what it writes to a file. -/
structure Outcome where
  output : Bytes := #[]
  /-- Lines on its progress. -/
  notes : List String := []
  file : Option (String × Bytes) := none
  /-- The number of syntax errors that were reported, or why the task ended early. -/
  ending : Except Failure Nat := .ok 0

namespace Outcome

def ofText (text : String) : Outcome := { output := ofString text }
def fail (o : Outcome) (f : Failure) : Outcome := { o with ending := .error f }

/-- Reported errors are no failure, but the exit code tells them. -/
def exitCode (o : Outcome) : Nat :=
  match o.ending with
  | .ok 0 => 0
  | .ok _ => 1
  | .error _ => 2

end Outcome

/-- The document of a node or token, with what is inside it. -/
def documentOf (t : SyntaxTree) (field : Option Field) (kind : Kind) (range : Range)
    (inner : List (String × Value)) :
    Value :=
  let name := (field.bind t.language.fieldName?).map fun name => ("field", Json.ofString name)
  ofMembers ([("kind", Json.ofString (t.language.kindName kind)), ("start", ofNat range.start),
    ("end", ofNat range.stop)] ++ name.toList ++ inner)

mutual
/-- A tree with kinds, offsets, fields and texts as a JSON document. -/
def document (t : SyntaxTree) (field : Option Field) (start : Nat) : Tree → Value
  | .leaf leaf => documentOf t field leaf.kind ⟨start, plus start leaf.length⟩
      [("text", Json.ofString (lossy (t.slice ⟨start, plus start leaf.length⟩)))]
  | .node info children => documentOf t field info.kind ⟨start, plus start info.length⟩
      (if children.isEmpty then []
        else [("children", .array (documents t info.fields 0 start children []))])
/-- The documents of children from an index and an offset on, after those in `done`. -/
def documents (t : SyntaxTree) (fields : Array (Nat × Field)) (index start : Nat) :
    List Tree → List Value → List Value
  | [], done => done.reverse
  | child :: rest, done =>
    documents t fields (index + 1) (plus start child.length) rest
      (document t (Data.lookupSorted fields index) start child :: done)
end

def treeText (t : SyntaxTree) : Format → Bytes
  | .sexp => ofString (t.sexp ++ "\n")
  | .json => (document t none 0 t.root).indented.toArray.push lineFeed

def statsNote (path : String) (t : SyntaxTree) : String :=
  s!"{path}: {t.stats.tokens} tokens, {t.stats.errors} errors"

/-- One line per error, with its position for an editor. -/
def errorLines (path : String) (t : SyntaxTree) : String :=
  let index := LineIndex.ofText t.source
  t.errors.foldl (fun text e =>
    text ++ s!"{path}:{(index.position e.range.start).render}: {e.message}\n") ""

/-- Reports the errors of some files one after another, up to the first file that cannot be read. -/
def checkFiles (parser : Parser) (read : String → Except FileError Bytes) (verbose : Bool) :
    List String → (errors : Nat) → Outcome → Outcome
  | [], errors, o =>
    { o with
      notes := if errors = 0 then o.notes else o.notes ++ [s!"{errors} syntax error(s)"]
      ending := .ok errors }
  | path :: rest, errors, o => match read path with
    | .error e => o.fail (.read path e)
    | .ok source =>
      let t := parser.parse source
      checkFiles parser read verbose rest (errors + t.errors.size)
        { o with
          output := o.output ++ ofString (errorLines path t)
          notes := if verbose then o.notes ++ [statsNote path t] else o.notes }

/-- A text with blanks before it or behind it, up to a width. -/
def padLeft (width : Nat) (text : String) : String :=
  String.ofList (List.replicate (width - text.length) ' ') ++ text
def padRight (width : Nat) (text : String) : String :=
  text ++ String.ofList (List.replicate (width - text.length) ' ')

def symbolLine (l : Language) (id : Nat) (s : SymbolInfo) : String :=
  let sort := if s.terminal then "terminal" else "rule"
  let marks :=
    (if l.isExtra ⟨id⟩ then ["extra"] else []) ++ (if s.visible then [] else ["hidden"]) ++
      (if s.named then [] else ["anonymous"])
  s!"{padLeft 4 (toString id)} {padRight 8 sort} {s.name} " ++ ",".intercalate marks ++ "\n"

def symbolLines (l : Language) : String := "".intercalate (l.symbols.mapIdx (symbolLine l)).toList

/-- Warnings and sizes of a compiled language. -/
def tableNotes (c : Compiled) : List String :=
  let l := c.language
  c.unreachable.map (fun rule => s!"warning: {Grammar.unreachableMessage rule}") ++
    [s!"{l.metadata.name} {l.metadata.version}: {l.symbols.size} symbols, " ++
      s!"{l.table.stateCount} states, {l.table.actionCount} actions, " ++
      s!"{l.lexer.stateCount} lexer states"]

/-- Carries out a call, where `read` gives the files. -/
def Call.run (read : String → Except FileError Bytes) (call : Call) : Outcome :=
  let notes (lines : List String) := if call.verbose then lines else []
  match call.task with
  | .parse path format => match read path with
    | .error e => Outcome.fail {} (.read path e)
    | .ok source => match Huff.compile .lalr with
      | .error e => Outcome.fail {} (.grammar e)
      | .ok c =>
        let t := Parser.parse { language := c.language } source
        { output := treeText t format, notes := notes [statsNote path t] }
  | .check paths => match Huff.compile .lalr with
    | .error e => Outcome.fail {} (.grammar e)
    | .ok c => checkFiles { language := c.language } read call.verbose paths 0 {}
  | .table output mode => match Huff.compile mode with
    | .error e => Outcome.fail {} (.grammar e)
    | .ok c =>
      let artifact := (Artifact.write c.language).toArray
      match output with
      | some path => { notes := notes (tableNotes c), file := some (path, artifact) }
      | none => { notes := notes (tableNotes c), output := artifact.push lineFeed }
  | .symbols => match Huff.compile .lalr with
    | .error e => Outcome.fail {} (.grammar e)
    | .ok c => .ofText (symbolLines c.language)

/-- Carries out a call in a directory, which may get a new file. -/
def Call.runIn (d : Directory) (call : Call) : Outcome × Directory :=
  let o := call.run d.read
  match o.file with
  | none => (o, d)
  | some (path, content) => match d.write path content with
    | .ok d' => (o, d')
    | .error e => (o.fail (.write e), d)

end Reparse.Command
