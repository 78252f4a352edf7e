import CssPrune.Options.Flaw
import CssPrune.Token.Literal

/-!
# Scalars of an options text

JSON strings, numbers and words.  A reader takes the text behind what announces the scalar and gives
its value and the text left unread.
-/

namespace CssPrune.Options

/-- The flaw shows in front of this text. -/
def failBefore {α : Type} (flaw : Flaw) (rest : List Char) : Except ReadError α :=
  .error ⟨flaw, bytes rest⟩

/-- The flaw shows behind the first byte of this text, if it has one. -/
def failIn {α : Type} (flaw : Flaw) (rest : List Char) : Except ReadError α :=
  .error ⟨flaw, bytes rest - 1⟩

def isJsonSpace (c : Char) : Bool := c = ' ' || c = '\n' || c = '\t' || c = '\r'

def skipSpace (cs : List Char) : List Char := cs.dropWhile isJsonSpace

/-! ### Words -/

/-- Steps behind the rest of a word whose first letter has been read. -/
def readWord : List Char → List Char → Except ReadError (List Char)
  | [], cs => .ok cs
  | _ :: _, [] => failBefore .endInValue []
  | w :: ws, c :: cs => if w = c then readWord ws cs else failIn .expectedWord (c :: cs)

/-! ### Strings -/

/-- The number that hexadecimal digits stand for. -/
def hexCode (cs : List Char) : Nat := cs.foldl (fun n c => 16 * n + Token.hexValue c) 0

/-- Four hexadecimal digits. -/
def readHex (cs : List Char) : Except ReadError (Nat × List Char) :=
  if bytes cs < 4 then failBefore .endInString []
  else if (cs.take 4).all Token.isHexDigit then .ok (hexCode (cs.take 4), cs.drop 4)
  else .error ⟨.invalidEscape, bytes cs - 4⟩

/-- The backslash and the letter in front of the second half of a surrogate pair. -/
def readMarks : List Char → List Char → Except ReadError (List Char)
  | [], cs => .ok cs
  | _ :: _, [] => failBefore .endInString []
  | m :: ms, c :: cs =>
    if m = c then readMarks ms cs else failIn .unfinishedSurrogate (c :: cs)

/-- The first half of a surrogate pair. -/
def isLeading (n : Nat) : Bool := 0xd800 ≤ n && n < 0xdc00

/-- The second half of a surrogate pair. -/
def isTrailing (n : Nat) : Bool := 0xdc00 ≤ n && n < 0xe000

/-- The code point of a surrogate pair. -/
def ofPair (high low : Nat) : Nat := (high - 0xd800) * 0x400 + (low - 0xdc00) + 0x10000

/-- What follows the `u` of an escape. -/
def readUnicode (cs : List Char) : Except ReadError (Char × List Char) := do
  let (high, cs) ← readHex cs
  if isTrailing high then failBefore .loneSurrogate cs
  else if isLeading high then
    let cs ← readMarks ['\\', 'u'] cs
    let (low, cs) ← readHex cs
    if isTrailing low then .ok (Char.ofNat (ofPair high low), cs)
    else failBefore .loneSurrogate cs
  else .ok (Char.ofNat high, cs)

/-- What follows a backslash in a string. -/
def readEscape : List Char → Except ReadError (Char × List Char)
  | [] => failBefore .endInString []
  | 'b' :: cs => .ok ('\x08', cs)
  | 'f' :: cs => .ok ('\x0c', cs)
  | 'n' :: cs => .ok ('\n', cs)
  | 'r' :: cs => .ok ('\r', cs)
  | 't' :: cs => .ok ('\t', cs)
  | 'u' :: cs => readUnicode cs
  | c :: cs =>
    if c = '"' || c = '\\' || c = '/' then .ok (c, cs) else failIn .invalidEscape (c :: cs)

/-- Reads a string up to its closing quote.  There are no more steps than characters. -/
def readStringWithin : Nat → List Char → Except ReadError (List Char × List Char)
  | 0, cs => failBefore .endInString cs
  | _ + 1, [] => failBefore .endInString []
  | n + 1, c :: cs =>
    if c = '"' then .ok ([], cs)
    else if c = '\\' then do
      let (e, cs) ← readEscape cs
      let (s, cs) ← readStringWithin n cs
      .ok (e :: s, cs)
    else if c < ' ' then failIn .controlCharacter (c :: cs)
    else do
      let (s, cs) ← readStringWithin n cs
      .ok (c :: s, cs)

/-- Reads a string behind its opening quote. -/
def readString (cs : List Char) : Except ReadError (String × List Char) := do
  let (s, cs) ← readStringWithin (cs.length + 1) cs
  .ok (String.ofList s, cs)

/-! ### Numbers -/

/-- Appends digits to a number as long as it stays below a bound; the digits that do not fit are
left. -/
def absorb (bound : Nat) (n : Nat) : List Char → Nat × List Char
  | [] => (n, [])
  | d :: ds =>
    let m := 10 * n + Numeral.digitValue d
    if m < bound then absorb bound m ds else (n, d :: ds)

def powerOfTen (n : Nat) : Float := Float.ofScientific 1 false n

/-- The greatest power of ten that is a number. -/
def maxPower : Nat := 308

/-- Divides by `10 ^ n` in steps that are numbers. -/
def scaleDown (x : Float) (n : Nat) : Float :=
  if n ≤ maxPower then x / powerOfTen n
  else if x == 0 then x
  else scaleDown (x / powerOfTen maxPower) (n - maxPower)
termination_by n
decreasing_by
  have : 0 < maxPower := by decide
  omega

/-- The number `significand · 10 ^ exponent`, unless it is too large. -/
def scale? (significand : Nat) (exponent : Int) : Option Float :=
  let x := Float.ofNat significand
  if exponent < 0 then some (scaleDown x exponent.natAbs)
  else if exponent.natAbs ≤ maxPower then
    let y := x * powerOfTen exponent.natAbs
    if y.isInf then none else some y
  else if x == 0 then some x
  else none

def signedFloat (negative : Bool) (x : Float) : Found := .float (if negative then -x else x)

/-- Ends a number that is not whole. -/
def scaled (negative : Bool) (significand : Nat) (exponent : Int) (rest : List Char) :
    Except ReadError (Found × List Char) :=
  match scale? significand exponent with
  | some x => .ok (signedFloat negative x, rest)
  | none => failBefore .numberOutOfRange rest

/-- What follows the letter of an exponent.  An exponent beyond 32 bits makes zero if it is
negative or the significand is zero. -/
def readExponent (negative : Bool) (significand : Nat) (exponent : Int) (cs : List Char) :
    Except ReadError (Found × List Char) :=
  let s := Token.readSign cs
  let d := Token.readDigits s.2
  match d.1 with
  | [] => if s.2 = [] then failBefore .endInValue [] else failIn .invalidNumber s.2
  | ds =>
    let a := absorb (Nat.pow 2 31) 0 ds
    if a.2 = [] then
      let shift : Int := if s.1 = some .minus then -a.1 else a.1
      scaled negative significand (exponent + shift) d.2
    else if significand = 0 ∨ s.1 = some .minus then .ok (signedFloat negative 0, d.2)
    else failIn .numberOutOfRange (a.2 ++ d.2)

/-- The letter of an exponent comes next. -/
def startsExponent (cs : List Char) : Bool := cs.head?.any fun c => c = 'e' || c = 'E'

/-- The bound of whole numbers, and of the digits of others that are looked at. -/
def significandBound : Nat := Nat.pow 2 64

/-- What follows the point. -/
def readFraction (negative : Bool) (significand : Nat) (exponent : Int) (cs : List Char) :
    Except ReadError (Found × List Char) :=
  let d := Token.readDigits cs
  if d.1 = [] then
    if cs = [] then failBefore .endInValue [] else failIn .invalidNumber cs
  else
    let a := absorb significandBound significand d.1
    let exponent := exponent - (d.1.length - a.2.length : Nat)
    if startsExponent d.2 then readExponent negative a.1 exponent (d.2.drop 1)
    else scaled negative a.1 exponent d.2

/-- A whole number.  Minus zero and numbers below the least one of 64 bits are not whole. -/
def whole (negative : Bool) (n : Nat) : Found :=
  if negative then
    if n = 0 ∨ Nat.pow 2 63 < n then .float (-(Float.ofNat n)) else .integer (-n)
  else .integer n

/-- Reads a number behind its sign. -/
def readNumber (negative : Bool) (cs : List Char) : Except ReadError (Found × List Char) :=
  let d := Token.readDigits cs
  match d.1 with
  | [] => if cs = [] then failBefore .endInValue [] else failIn .invalidNumber cs
  | c :: ds =>
    if c = '0' ∧ ds ≠ [] then failIn .invalidNumber (ds ++ d.2)
    else
      let a := absorb significandBound 0 d.1
      match d.2 with
      | '.' :: rest => readFraction negative a.1 a.2.length rest
      | rest =>
        if startsExponent rest then readExponent negative a.1 a.2.length (rest.drop 1)
        else if a.2 = [] then .ok (whole negative a.1, rest)
        else scaled negative a.1 a.2.length rest

end CssPrune.Options
