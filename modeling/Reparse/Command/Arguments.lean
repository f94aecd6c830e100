import Reparse.Table.Automaton

/-! # Command lines -/
namespace Reparse.Command

/-- How a tree is printed. -/
inductive Format where
  | sexp
  | json
deriving DecidableEq, Inhabited

def Format.ofString? : String → Option Format
  | "sexp" => some .sexp
  | "json" => some .json
  | _ => none

/-- What the program is asked to do. -/
inductive Task where
  | parse (path : String) (format : Format)
  | check (paths : List String)
  | table (output : Option String) (mode : Table.Mode)
  | symbols
deriving DecidableEq, Inhabited

/-- A task, with or without notes on its progress. -/
structure Call where
  task : Task
  verbose : Bool := false
deriving DecidableEq, Inhabited

/-- Why a command line asks for no task. -/
inductive Usage where
  | help
  | version
  /-- The command line is empty. -/
  | nothingAsked
  | unknownArgument
  /-- A value is empty where none may be, or is none of the choices, or is not there. -/
  | invalidValue
  | missingArgument
  | repeatedArgument
  /-- A value for a flag that takes none. -/
  | unwantedValue
  | unknownCommand
  | missingCommand
deriving DecidableEq, Inhabited

namespace Usage

/-- Help and the version are no mistakes if asked for. -/
def exitCode : Usage → Nat
  | .help | .version => 0
  | _ => 2

def message : Usage → String
  | .help | .nothingAsked =>
    "Usage: huff-syntax [-v] parse FILE [-f sexp|json] | check FILE... | " ++
      "table [-o FILE] [--canonical] | symbols"
  | .version => "huff-syntax 0.3.0"
  | .unknownArgument => "error: unexpected argument"
  | .invalidValue => "error: invalid value"
  | .missingArgument => "error: a required argument is missing"
  | .repeatedArgument => "error: an argument is given twice"
  | .unwantedValue => "error: unexpected value"
  | .unknownCommand => "error: unrecognized command"
  | .missingCommand => "error: a command is required"

end Usage

inductive Flag where
  | help
  | version
  | verbose
  | canonical
  | format
  | output
deriving DecidableEq, Inhabited

namespace Flag

def long : Flag → String
  | .help => "help"
  | .version => "version"
  | .verbose => "verbose"
  | .canonical => "canonical"
  | .format => "format"
  | .output => "output"

def short? : Flag → Option Char
  | .help => some 'h'
  | .version => some 'V'
  | .verbose => some 'v'
  | .canonical => none
  | .format => some 'f'
  | .output => some 'o'

def takesValue : Flag → Bool
  | .format | .output => true
  | _ => false

end Flag

/-- The first word of a task. -/
inductive Verb where
  | parse
  | check
  | table
  | symbols
deriving DecidableEq, Inhabited

/-- How many paths a command takes. -/
inductive Arity where
  | none
  | one
  | many
deriving DecidableEq

namespace Verb

def ofString? : String → Option Verb
  | "parse" => some .parse
  | "check" => some .check
  | "table" => some .table
  | "symbols" => some .symbols
  | _ => none

def flags : Verb → List Flag
  | .parse => [.format, .verbose, .help]
  | .check | .symbols => [.verbose, .help]
  | .table => [.output, .canonical, .verbose, .help]

def arity : Verb → Arity
  | .parse => .one
  | .check => .many
  | .table | .symbols => .none

end Verb

/-- Flags before the command. -/
def leadingFlags : List Flag := [.verbose, .help, .version]

/-- Values that are read but not yet checked; the argument after them shows that they are
complete. -/
inductive Pending where
  | value (flag : Flag) (given : Option String)
  | paths (given : List String)
deriving DecidableEq, Inhabited

/-- The arguments read so far. -/
structure Reading where
  verbose : Bool := false
  canonical : Bool := false
  format : Option Format := none
  output : Option String := none
  paths : List String := []
  pending : Option Pending := none
deriving DecidableEq, Inhabited

namespace Reading

/-- Sets the value of a flag, once. -/
def assign (r : Reading) : Flag → String → Except Usage Reading
  | .format, value =>
    if r.format.isSome then .error .repeatedArgument
    else match Format.ofString? value with
      | some f => .ok { r with format := some f }
      | none => .error .invalidValue
  | .output, value =>
    if r.output.isSome then .error .repeatedArgument
    else if value = "" then .error .invalidValue
    else .ok { r with output := some value }
  | _, _ => .error .unwantedValue

/-- Checks what is pending. -/
def settle (r : Reading) : Except Usage Reading :=
  match r.pending with
  | none => .ok r
  | some (.value _ none) => .error .invalidValue
  | some (.value flag (some given)) => { r with pending := none }.assign flag given
  | some (.paths given) =>
    if given.contains "" then .error .invalidValue
    else .ok { r with paths := r.paths ++ given, pending := none }

/-- Sets a flag without a value, once. -/
def turnOn (r : Reading) : Flag → Except Usage Reading
  | .help => .error .help
  | .version => .error .version
  | .verbose => if r.verbose then .error .repeatedArgument else .ok { r with verbose := true }
  | _ => if r.canonical then .error .repeatedArgument else .ok { r with canonical := true }

/-- A flag that takes a value, with the value if it is attached. -/
def giveValue (r : Reading) (flag : Flag) (attached : Option String) : Except Usage Reading := do
  let r ← r.settle
  match attached with
  | some value => r.assign flag value
  | none => return { r with pending := some (.value flag none) }

/-- The flag after two dashes, with a value after an equals sign. -/
def readLong (flags : List Flag) (r : Reading) (text : List Char) : Except Usage Reading := do
  let name := String.ofList (text.takeWhile (· ≠ '='))
  let attached := match text.dropWhile (· ≠ '=') with
    | [] => none
    | _ :: value => some (String.ofList value)
  match flags.find? (·.long == name) with
  | none => .error .unknownArgument
  | some flag =>
    if flag.takesValue then r.giveValue flag attached
    else if attached.isSome then .error .unwantedValue
    else (← r.settle).turnOn flag

/-- The flags after one dash. What follows one that takes a value is its value. -/
def readShort (flags : List Flag) : List Char → Reading → Except Usage Reading
  | [], r => .ok r
  | c :: rest, r => match flags.find? (·.short? == some c) with
    | none => .error .unknownArgument
    | some flag =>
      if flag.takesValue then
        r.giveValue flag (match rest with
          | [] => none
          | '=' :: value => some (String.ofList value)
          | value => some (String.ofList value))
      else do readShort flags rest (← (← r.settle).turnOn flag)

def readPath (arity : Arity) (r : Reading) (path : String) : Except Usage Reading := do
  match arity, r.pending with
  | .many, some (.paths given) => return { r with pending := some (.paths (given ++ [path])) }
  | .many, _ => return { ← r.settle with pending := some (.paths [path]) }
  | .one, some (.paths _) | .none, _ => .error .unknownArgument
  | .one, _ =>
    if r.paths.isEmpty then return { ← r.settle with pending := some (.paths [path]) }
    else .error .unknownArgument

/-- A word without dashes: the value of the flag before it, or a path. -/
def readWord (arity : Arity) (r : Reading) (word : String) : Except Usage Reading :=
  match r.pending with
  | some (.value flag none) => .ok { r with pending := some (.value flag (some word)) }
  | _ => r.readPath arity word

/-- The arguments of a command; after two dashes all of them are paths. -/
def readAll (verb : Verb) : (pathsOnly : Bool) → Reading → List String → Except Usage Reading
  | _, r, [] => r.settle
  | true, r, path :: rest => do readAll verb true (← r.readPath verb.arity path) rest
  | false, r, word :: rest => do match word.toList with
    | ['-', '-'] => readAll verb true r rest
    | '-' :: '-' :: text => readAll verb false (← r.readLong verb.flags text) rest
    | '-' :: c :: text => readAll verb false (← r.readShort verb.flags (c :: text)) rest
    | _ => readAll verb false (← r.readWord verb.arity word) rest

def task (r : Reading) : Verb → Except Usage Task
  | .parse => match r.paths with
    | [] => .error .missingArgument
    | path :: _ => .ok (.parse path (r.format.getD .sexp))
  | .check => if r.paths.isEmpty then .error .missingArgument else .ok (.check r.paths)
  | .table => .ok (.table r.output (if r.canonical then .canonical else .lalr))
  | .symbols => .ok .symbols

end Reading

def isCommand (word : String) : Bool := (Verb.ofString? word).isSome || word == "help"

/-- The command `help`, which takes the name of a command. -/
def helpOn : List String → Usage
  | [] => .help
  | [word] => if isCommand word then .help else .unknownCommand
  | _ => .unknownCommand

/-- A command line without a command. -/
def noCommand (r : Reading) : Usage := if r.verbose then .missingCommand else .nothingAsked

/-- Reads the flags before the command, and then the command with its arguments. -/
def readCall (r : Reading) : List String → Except Usage Call
  | [] => .error (noCommand r)
  | word :: rest => match Verb.ofString? word with
    | some verb => do
      let given ← Reading.readAll verb false {} rest
      return ⟨← given.task verb, r.verbose || given.verbose⟩
    | none =>
      if word = "help" then .error (helpOn rest)
      else match word.toList with
        | ['-', '-'] => match rest with
          | [] => .error (noCommand r)
          | next :: _ => .error (if isCommand next then .unknownArgument else .unknownCommand)
        | '-' :: '-' :: text => do readCall (← r.readLong leadingFlags text) rest
        | '-' :: c :: text => do readCall (← r.readShort leadingFlags (c :: text)) rest
        | _ => .error .unknownCommand

/-- The call that a command line asks for. -/
def Call.ofArguments (arguments : List String) : Except Usage Call := readCall {} arguments

end Reparse.Command
