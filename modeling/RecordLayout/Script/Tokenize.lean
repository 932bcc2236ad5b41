import RecordLayout.Script.Scanner
import RecordLayout.Script.Token

/-!
# Reading the tokens of a script

The grammar of declarations. Between the parts of a declaration there may be gaps, but none after
the colon of a type and none inside the text of an expression, where a comment is text as well. A
numeric parameter that is too large is reported only once the whole script has been read.
-/

namespace RecordLayout.Script

namespace Scanner

/-- A single character. -/
def symbol (x : Char) : Scanner Unit := do
  let _ ← char (· == x)
  pure ()

/-- The mark of a byte order. -/
def byteOrder : Scanner ByteOrder :=
  named .byteOrder ((do symbol '<'; pure .little) <|> (do symbol '>'; pure .big))

/-- The name of a type. -/
def typeName : Scanner String :=
  named .typeName
    ((do word "reset$$".toList; pure "reset$$") <|>
      (do
        let first ← char Char.isAlpha
        let more ← span isNamePart
        pure (String.ofList (first :: more))))

/-- The parameter of a type, as an expression in parentheses. -/
def extraExpr : Scanner Extra :=
  named .extraExpr do
    symbol '('
    let text ← balanced
    symbol ')'
    pure (.expression (String.ofList (Text.trim text)))

/-- The parameter of a type, as the digits of a number. -/
def extraDigits : Scanner String :=
  named .extraNumber do
    let digits ← span1 Char.isDigit
    notNext isNameStart
    pure (String.ofList digits)

end Scanner

/-- The number with these decimal digits. -/
def decimalValue (digits : List Char) : Nat :=
  digits.foldl (fun n c => 10 * n + (c.toNat - '0'.toNat)) 0

/-- A numeric parameter written at a place. -/
def Extra.ofDigits (digits : String) (position : Position) : Except Error Extra :=
  let value := decimalValue digits.toList
  if value < 2 ^ 32 then .ok (.number (.ofNat value))
  else .error ⟨.parameterTooLarge digits, position⟩

namespace Scanner

/-- The parameter of a type. -/
def typeExtra : Scanner (Except Error Extra) := do
  let start ← get
  named .typeExtra do
    symbol ':'
    (do
      let extra ← extraExpr
      pure (.ok extra)) <|>
    (do
      let digits ← extraDigits
      pure (Extra.ofDigits digits start.position))

/-- The brackets of an array. -/
def arraySize : Scanner Size :=
  named .arraySize do
    symbol '['
    gap
    let size ←
      named .unbounded (do symbol '_'; gap; next (· == ']'); pure Size.unbounded) <|>
      named .sizeText (do
        let text ← balanced1
        pure (Size.expression (String.ofList (Text.trim text))))
    gap
    symbol ']'
    pure size

/-- The name of a field or a structure. -/
def fieldName : Scanner String := named .fieldName name

/-- The declaration of a field. -/
def fieldDecl : Scanner (Except Error Declaration) :=
  named .fieldDecl do
    let order ← maybe byteOrder
    gap
    let type ← typeName
    gap
    let extra ← maybe typeExtra
    gap
    let size ← maybe arraySize
    gap
    let name ← maybe fieldName
    gap
    symbol ';'
    pure <|
      match extra with
      | none => .ok (.field ⟨order, type, none, size, name⟩)
      | some (.ok extra) => .ok (.field ⟨order, type, some extra, size, name⟩)
      | some (.error e) => .error e

/-- The opening of a structure. -/
def structStart : Scanner Declaration :=
  named .structStart do
    let name ← maybe fieldName
    gap
    let size ← maybe arraySize
    gap
    symbol '\x7b'
    pure (.opening name size)

/-- The closing of a structure. -/
def structEnd : Scanner Declaration :=
  named .structEnd do
    symbol '\x7d'
    pure .closing

/-- One declaration of any kind. -/
def declaration : Scanner (Except Error Declaration) :=
  (.ok <$> structEnd) <|> (.ok <$> structStart) <|> fieldDecl

/-- One token. -/
def token : Scanner (Except Error Token) := do
  let start ← get
  let found ← declaration
  let stop ← get
  pure (found.map (⟨·, String.ofList (start.upTo stop), start.position⟩))

/-- A whole script. -/
def script : Scanner (List (Except Error Token)) :=
  named .script do
    gap
    let tokens ← manyApart token
    gap
    named .endOfInput atEnd
    pure tokens

end Scanner

/-- The tokens of a script. -/
def tokenize (source : String) : Except Error (List Token) :=
  match Scanner.script.answer (.ofString source) with
  | .ok (tokens, _) => tokens.mapM id
  | .error attempts => .error ⟨.unexpected attempts.failed, attempts.position⟩

end RecordLayout.Script
