import Reparse.Command.Task

/-! # The program -/
namespace Reparse
open Command

def fileError : IO.Error → FileError
  | .noFileOrDirectory .. => .notFound
  | .inappropriateType .. => .isADirectory
  | e => .other e.toString

def readFile (path : String) : IO (Except FileError Text.Bytes) := do
  try return .ok (← IO.FS.readBinFile path).data
  catch e => return .error (fileError e)

/-- The files that a task reads. -/
def Command.Task.inputs : Task → List String
  | .parse path _ => [path]
  | .check paths => paths
  | .table .. | .symbols => []

def runCall (call : Call) : IO UInt32 := do
  let contents ← call.task.inputs.mapM fun path => return (path, ← readFile path)
  let o := call.run fun path => (contents.lookup path).getD (.error .notFound)
  (← IO.getStdout).write ⟨o.output⟩
  for note in o.notes do IO.eprintln note
  let ending ← match o.file with
    | none => pure o
    | some (path, content) =>
      try
        IO.FS.writeBinFile path ⟨content⟩
        pure o
      catch e => pure (o.fail (.write (fileError e)))
  if let .error f := ending.ending then IO.eprintln s!"Error: {f.message}"
  return ending.exitCode.toUInt32

end Reparse

def main (args : List String) : IO UInt32 := do
  match Reparse.Command.Call.ofArguments args with
  | .ok call => Reparse.runCall call
  | .error usage =>
    if usage.exitCode = 0 then IO.println usage.message else IO.eprintln usage.message
    return usage.exitCode.toUInt32
