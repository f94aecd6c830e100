import Reparse.Text.Size

/-! # Files by path, and a directory that is held in memory -/
namespace Reparse.Command
open Text

/-- Why a file cannot be read or written. -/
inductive FileError where
  | notFound
  | notADirectory
  | isADirectory
  | other (text : String)
deriving DecidableEq, Inhabited

def FileError.message : FileError → String
  | .notFound => "No such file or directory (os error 2)"
  | .notADirectory => "Not a directory (os error 20)"
  | .isADirectory => "Is a directory (os error 21)"
  | .other text => text

/-- Files with the names on the way to them. -/
structure Directory where
  files : List (List String × Bytes) := []

namespace Directory

/-- What a path leads to. -/
inductive Node where
  | file (content : Bytes)
  | directory
  | missing

/-- A place in the directory or below; none is a place outside, where no files are known. -/
abbrev Place := Option (List String)

def node (d : Directory) : Place → Node
  | none => .directory
  | some names => match d.files.find? (·.1 == names) with
    | some (_, content) => .file content
    | none =>
      if names.isEmpty || d.files.any (fun f => names.isPrefixOf f.1) then .directory else .missing

/-- One step from a place, which has to be a directory. -/
def enter (d : Directory) (place : Place) (name : String) : Except FileError Place :=
  match d.node place with
  | .missing => .error .notFound
  | .file _ => .error .notADirectory
  | .directory =>
    if name = "." then .ok place
    else match place with
      | none => if name = ".." then .ok none else .error .notFound
      | some names =>
        if name = ".." then .ok (if names.isEmpty then none else some names.dropLast)
        else .ok (some (names ++ [name]))

/-- The place a path leads to. A slash at the end asks for a directory. -/
def resolve (d : Directory) (path : String) : Except FileError Place := do
  let names := path.splitOn "/"
  let base : Place := if path.startsWith "/" then none else some []
  let place ← (names.filter (· ≠ "")).foldlM d.enter base
  if names.getLast? = some "" then d.enter place "." else return place

def read (d : Directory) (path : String) : Except FileError Bytes := do
  match d.node (← d.resolve path) with
  | .file content => return content
  | .directory => .error .isADirectory
  | .missing => .error .notFound

/-- Writes a file, which is made if it is new. The directory it is in has to exist. -/
def write (d : Directory) (path : String) (content : Bytes) : Except FileError Directory := do
  if path.endsWith "/" then .error .isADirectory
  else
    let place ← d.resolve path
    match d.node place, place with
    | .directory, _ | _, none => .error .isADirectory
    | _, some names => return ⟨(names, content) :: d.files.filter (·.1 ≠ names)⟩

/-- A directory with some files; a later one replaces an earlier one of the same path. -/
def ofFiles (files : List (String × Bytes)) : Directory :=
  files.foldl (fun d (path, content) =>
    let names := (path.splitOn "/").filter fun name => name ≠ "" && name ≠ "."
    ⟨(names, content) :: d.files.filter (·.1 ≠ names)⟩) {}

end Directory
end Reparse.Command
