import RecordLayout.Codec
import RecordLayout.Text.Blank

/-!
# The command line

The command decodes a file, or what comes on its input, by the layout of a script and prints the
tree. Flags may stand anywhere among the arguments and each is taken once; external values are given
one by one. On request the tree is written again and compared with the bytes it was read from.

How files are read is left to the caller, so the command itself is a function of their contents.
-/

namespace RecordLayout.Cli

/-- What the command leaves. -/
structure Report where
  code : Nat
  stdout : String
  stderr : String
  deriving DecidableEq, Repr

/-- What the arguments ask for. -/
structure Invocation where
  msb0 : Bool
  little : Bool
  lenient : Bool
  roundtrip : Bool
  /-- The external values, the latest first. -/
  externals : List (String × Int64)
  script : String
  /-- The file with the data, if it does not come on the input. -/
  data : Option String

/-- The result of naming a file. -/
abbrev FileContents := Except String (List UInt8)

/-! ## Arguments -/

/-- The arguments without the first that is one of some spellings of a flag, and whether there was
one. -/
def takeFlag (spellings : List String) (args : List String) : Bool × List String :=
  match args.findIdx? (spellings.contains ·) with
  | some i => (true, args.eraseIdx i)
  | none => (false, args)

/-- A signed word in decimal, read digit by digit: `sign` is one or minus one. -/
def parseDigits (sign : Int) (n : Int) : List Char → Except String Int64
  | [] => .ok (.ofInt n)
  | c :: rest =>
    if c.isDigit then
      let n := 10 * n + sign * (c.toNat - '0'.toNat : Nat)
      if 2 ^ 63 ≤ n then .error "number too large to fit in target type"
      else if n < -2 ^ 63 then .error "number too small to fit in target type"
      else parseDigits sign n rest
    else .error "invalid digit found in string"

/-- A signed word in decimal. -/
def parseWord : List Char → Except String Int64
  | [] => .error "cannot parse integer from empty string"
  | ['+'] | ['-'] => .error "invalid digit found in string"
  | '+' :: digits => parseDigits 1 0 digits
  | '-' :: digits => parseDigits (-1) 0 digits
  | digits => parseDigits 1 0 digits

/-- An external value as an argument gives it. -/
def parseExternal (arg : String) : Except String (String × Int64) :=
  let chars := arg.toList
  match chars.dropWhile (· != '=') with
  | [] => .error s!"--ext expects NAME=VALUE, got '{arg}'"
  | _ :: value => do
    let name := chars.takeWhile (· != '=')
    let v ← parseWord (Text.trim value)
    pure (String.ofList (Text.trim name), v)

/-- The external values that arguments give, the latest first, and the other arguments. -/
def takeExternals (found : List (String × Int64)) :
    List String → Except String (List (String × Int64) × List String)
  | [] => .ok (found, [])
  | "--ext" :: [] => .error "--ext needs NAME=VALUE"
  | "--ext" :: value :: rest => do
    let external ← parseExternal value
    takeExternals (external :: found) rest
  | arg :: rest => do
    let (externals, others) ← takeExternals found rest
    pure (externals, arg :: others)

/-- How the command is used. -/
def usage : String :=
  "usage: layout_dump [--msb0] [--little] [--ext NAME=VALUE] [--skip-eof] [--roundtrip] " ++
    "SCRIPT [DATA]"

/-- What arguments ask for. -/
def Invocation.ofArgs (args : List String) : Except String Invocation := do
  let (msb0, args) := takeFlag ["--msb0", "-m"] args
  let (little, args) := takeFlag ["--little", "-l"] args
  let (lenient, args) := takeFlag ["--skip-eof"] args
  let (roundtrip, args) := takeFlag ["--roundtrip", "-r"] args
  let (externals, args) ← takeExternals [] args
  match args with
  | [script] => pure ⟨msb0, little, lenient, roundtrip, externals, script, none⟩
  | [script, data] => pure ⟨msb0, little, lenient, roundtrip, externals, script, some data⟩
  | _ => throw usage

/-! ## The command -/

/-- Why the command failed, as it says so. -/
def Report.failure (stdout stderr message : String) : Report :=
  ⟨1, stdout, stderr ++ "Error: " ++ message ++ "\n"⟩

/-- A script that does not compile, or its codec. -/
def Invocation.codec (inv : Invocation) (source : String) : Except String Codec :=
  match compile { order := if inv.little then .little else .big } source with
  | .ok schema =>
    .ok
      { layout := schema.layout
        options :=
          { bitOrder := if inv.msb0 then .msb0 else .lsb0, lenient := inv.lenient } }
  | .error e => .error (inv.script ++ ": " ++ e.message)

/-- The external values. -/
def Invocation.resolver (inv : Invocation) : Resolver := fun name _ =>
  (inv.externals.find? (·.1 == name)).map Prod.snd

/-- The report on a decoded record, without the comparison. -/
def Invocation.describe (inv : Invocation) (decoded : Decoded) (size : Nat) : String :=
  "script: " ++ inv.script ++ "\ndata:   " ++ inv.data.getD "<stdin>" ++
    "\nbytes consumed: " ++ toString decoded.consumed ++ " of " ++ toString size ++ "\n"

/-- Decodes the data, and encodes it again if that is asked for. -/
def Invocation.report (inv : Invocation) (codec : Codec) (data : List UInt8) : Report :=
  match codec.decode (some inv.resolver) data with
  | .error e => .failure "" "" e.message
  | .ok decoded =>
    let stdout := decoded.tree.dump ++ "\n"
    let stderr := inv.describe decoded data.length
    if inv.roundtrip then
      match codec.encode (some inv.resolver) decoded.tree with
      | .error e => .failure stdout stderr e.message
      | .ok bytes =>
        if bytes = data.take decoded.consumed then ⟨0, stdout, stderr ++ "roundtrip: ok\n"⟩
        else
          ⟨1, stdout,
            stderr ++ "roundtrip: MISMATCH (" ++ toString bytes.length ++ " bytes re-encoded)\n"⟩
    else ⟨0, stdout, stderr⟩

/-- The text of a script file. -/
def scriptText (contents : FileContents) : Except String String := do
  let bytes ← contents
  match Text.Utf8.decode bytes with
  | .ok text => pure text
  | .error _ => throw "stream did not contain valid UTF-8"

/-- The command. The script is read and compiled before the data is touched. -/
def run {m : Type → Type} [Monad m] (readFile : String → m FileContents)
    (readInput : m (List UInt8)) (args : List String) : m Report :=
  match Invocation.ofArgs args with
  | .error message => pure (.failure "" "" message)
  | .ok inv => do
    let contents ← readFile inv.script
    match scriptText contents >>= inv.codec with
    | .error message => pure (.failure "" "" message)
    | .ok codec =>
      match inv.data with
      | none => do
        let data ← readInput
        pure (inv.report codec data)
      | some path => do
        match ← readFile path with
        | .error message => pure (.failure "" "" message)
        | .ok data => pure (inv.report codec data)

end RecordLayout.Cli
