import CssPrune.Options
import CssPrune.Decimal.Shortest
import CssPrune.Text.Quoted

/-!
# Flaws in an options text

What can be wrong with a JSON text that should hold options, and how it is put into words.  The
place is told as a line and as the number of bytes read in that line.
-/

namespace CssPrune.Options

/-- A value where another one is wanted. -/
inductive Found where
  | null
  | bool (b : Bool)
  | integer (n : Int)
  | float (x : Float)
  | string (s : String)
  | sequence
  | map

/-- What is wanted. -/
inductive Wanted where
  | bool
  | options

/-- What is wrong with a text. -/
inductive Flaw where
  | endInValue
  | endInObject
  | endInList
  | endInString
  | expectedValue
  | expectedWord
  | expectedColon
  | expectedListEnd
  | expectedObjectEnd
  | keyNotString
  | trailingComma
  | trailingCharacters
  | invalidNumber
  | numberOutOfRange
  | invalidEscape
  | controlCharacter
  | loneSurrogate
  | unfinishedSurrogate
  | wrongType (found : Found) (wanted : Wanted)
  | unknownField (name : String)
  | duplicateField (f : Field)

/-- Numbers are written without an exponent from 1e-5 up to, but not including, 1e16. -/
def floatFormat : Decimal.FloatFormat := ⟨-5, 15, .even, true⟩

/-- A text between grave accents. -/
def ticked (s : String) : String := "`" ++ s ++ "`"

/-- The value in words. -/
def Found.describe : Found → String
  | .null => "null"
  | .bool b => "boolean " ++ ticked (toString b)
  | .integer n => "integer " ++ ticked (toString n)
  | .float x => "floating point " ++ ticked (floatFormat.text64 x)
  | .string s => "string " ++ Text.quoteString s
  | .sequence => "sequence"
  | .map => "map"

/-- What is wanted, in words. -/
def Wanted.describe : Wanted → String
  | .bool => "a boolean"
  | .options => "struct ShakeOptions"

/-- The flaw in words, without its place. -/
def Flaw.message : Flaw → String
  | .endInValue => "EOF while parsing a value"
  | .endInObject => "EOF while parsing an object"
  | .endInList => "EOF while parsing a list"
  | .endInString => "EOF while parsing a string"
  | .expectedValue => "expected value"
  | .expectedWord => "expected ident"
  | .expectedColon => "expected " ++ ticked ":"
  | .expectedListEnd => "expected " ++ ticked "," ++ " or " ++ ticked "]"
  | .expectedObjectEnd => "expected " ++ ticked "," ++ " or " ++ ticked "\x7d"
  | .keyNotString => "key must be a string"
  | .trailingComma => "trailing comma"
  | .trailingCharacters => "trailing characters"
  | .invalidNumber => "invalid number"
  | .numberOutOfRange => "number out of range"
  | .invalidEscape => "invalid escape"
  | .controlCharacter => "control character (\\u0000-\\u001F) found while parsing a string"
  | .loneSurrogate => "lone leading surrogate in hex escape"
  | .unfinishedSurrogate => "unexpected end of hex escape"
  | .wrongType found wanted =>
    "invalid type: " ++ found.describe ++ ", expected " ++ wanted.describe
  | .unknownField name =>
    "unknown field " ++ ticked name ++ ", expected one of " ++
      ", ".intercalate (Field.all.map fun f => ticked f.name)
  | .duplicateField f => "duplicate field " ++ ticked f.name

/-- A flaw and the number of bytes behind the place where it shows. -/
structure ReadError where
  flaw : Flaw
  left : Nat

/-- The length of a text in bytes. -/
def bytes (cs : List Char) : Nat := cs.foldl (fun n c => n + c.utf8Size) 0

/-- The line, and the number of bytes read in it, once `n` more bytes have been read. -/
def position (line column : Nat) (n : Nat) : List Char → Nat × Nat
  | [] => (line, column)
  | c :: cs =>
    if n < c.utf8Size then (line, column + n)
    else if c = '\n' then position (line + 1) 0 (n - 1) cs
    else position line (column + c.utf8Size) (n - c.utf8Size) cs

/-- The flaw in words, and its place in the text. -/
def ReadError.message (text : List Char) (e : ReadError) : String :=
  let p := position 1 0 (bytes text - e.left) text
  e.flaw.message ++ " at line " ++ toString p.1 ++ " column " ++ toString p.2

end CssPrune.Options
