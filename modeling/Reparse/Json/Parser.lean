import Reparse.Json.Text

/-! # Reading JSON documents

Only the grammar is checked here: escapes must be well formed, but a string may hold any bytes and
unpaired surrogates. The open containers form an explicit stack. -/
namespace Reparse.Json

def isBlank (b : UInt8) : Bool := b == 32 || b == 9 || b == 10 || b == 13
def skipBlanks (input : List UInt8) : List UInt8 := input.dropWhile isBlank

/-- The rest of a string after its opening quote: what is inside, and what follows it. -/
def scanString (done : List UInt8) : List UInt8 → Option (List UInt8 × List UInt8)
  | [] => none
  | 34 :: rest => some (done.reverse, rest)
  | 92 :: 117 :: a :: b :: c :: d :: rest =>
    if [a, b, c, d].all fun x => (hexValue? x).isSome then
      scanString (d :: c :: b :: a :: 117 :: 92 :: done) rest
    else none
  | 92 :: letter :: rest =>
    if (unescapeLetter? letter).isSome then scanString (letter :: 92 :: done) rest else none
  | [92] => none
  | b :: rest => if b < 32 then none else scanString (b :: done) rest

/-- One or more digits, and what follows. -/
def scanDigits (input : List UInt8) : Option (List UInt8 × List UInt8) :=
  match input.span isDigit with
  | ([], _) => none
  | (digits, rest) => some (digits, rest)

/-- Digits without a leading zero before other digits. -/
def scanWhole (input : List UInt8) : Option (List UInt8 × List UInt8) :=
  match scanDigits input with
  | some (48 :: _ :: _, _) => none
  | found => found

def scanFraction (input : List UInt8) : Option (List UInt8 × List UInt8) :=
  match input with
  | 46 :: rest => (scanDigits rest).map fun (digits, rest) => (46 :: digits, rest)
  | _ => some ([], input)

def scanExponent (input : List UInt8) : Option (List UInt8 × List UInt8) :=
  match input with
  | e :: rest =>
    if e = 101 ∨ e = 69 then
      let (sign, rest) : List UInt8 × List UInt8 := match rest with
        | 43 :: rest => ([43], rest)
        | 45 :: rest => ([45], rest)
        | _ => ([], rest)
      (scanDigits rest).map fun (digits, rest) => (e :: sign ++ digits, rest)
    else some ([], input)
  | [] => some ([], input)

def scanNumber (input : List UInt8) : Option (Value × List UInt8) := do
  let (sign, input) : List UInt8 × List UInt8 := match input with
    | 45 :: rest => ([45], rest)
    | _ => ([], input)
  let (whole, rest) ← scanWhole input
  let (fraction, rest) ← scanFraction rest
  let (exponent, rest) ← scanExponent rest
  return (.number (sign ++ whole ++ fraction ++ exponent), rest)

def scanWord (word : String) (v : Value) (input : List UInt8) : Option (Value × List UInt8) :=
  if (ascii word).isPrefixOf input then some (v, input.drop word.length) else none

/-- A value that is not a container. -/
def scanScalar : List UInt8 → Option (Value × List UInt8)
  | 34 :: rest => (scanString [] rest).map fun (s, rest) => (.string s, rest)
  | input => scanWord "null" .null input <|> scanWord "true" (.bool true) input <|>
      scanWord "false" (.bool false) input <|> scanNumber input

/-- A key and its colon. -/
def scanKey (input : List UInt8) : Option (List UInt8 × List UInt8) :=
  match skipBlanks input with
  | 34 :: rest => do
    let (key, rest) ← scanString [] rest
    match skipBlanks rest with
    | 58 :: rest => some (key, rest)
    | _ => none
  | _ => none

/-- An open container, with its finished parts, last one first. -/
inductive Frame where
  | items (done : List Value)
  | members (done : List (List UInt8 × Value)) (key : List UInt8)

/-- What is to be read next: a value, or what may stand after the value just read. -/
inductive Expecting where
  | value
  | after (v : Value)

/-- One step: it reads at least one byte, unless the document is complete. -/
def scanStep (stack : List Frame) (expecting : Expecting) (input : List UInt8) :
    Option (List Frame × Expecting × List UInt8) :=
  match expecting, skipBlanks input, stack with
  | .value, 91 :: rest, _ => match skipBlanks rest with
    | 93 :: rest => some (stack, .after (.array []), rest)
    | rest => some (.items [] :: stack, .value, rest)
  | .value, 123 :: rest, _ => match skipBlanks rest with
    | 125 :: rest => some (stack, .after (.object []), rest)
    | rest => (scanKey rest).map fun (key, rest) => (.members [] key :: stack, .value, rest)
  | .value, input, _ => (scanScalar input).map fun (v, rest) => (stack, .after v, rest)
  | .after v, 44 :: rest, .items done :: stack => some (.items (v :: done) :: stack, .value, rest)
  | .after v, 93 :: rest, .items done :: stack =>
    some (stack, .after (.array (v :: done).reverse), rest)
  | .after v, 44 :: rest, .members done key :: stack =>
    (scanKey rest).map fun (next, rest) => (.members ((key, v) :: done) next :: stack, .value, rest)
  | .after v, 125 :: rest, .members done key :: stack =>
    some (stack, .after (.object ((key, v) :: done).reverse), rest)
  | .after _, _, _ => none

def scanFrom : (fuel : Nat) → List Frame → Expecting → List UInt8 → Option Value
  | 0, _, _, _ => none
  | fuel + 1, stack, expecting, input =>
    match stack, expecting, skipBlanks input with
    | [], .after v, [] => some v
    | _, _, _ => match scanStep stack expecting input with
      | some (stack, expecting, rest) => scanFrom fuel stack expecting rest
      | none => none

/-- The one value of a document. -/
def parse? (input : List UInt8) : Option Value := scanFrom (input.length + 2) [] .value input

end Reparse.Json
