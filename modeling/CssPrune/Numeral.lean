import CssPrune.Decimal.Shortest

/-!
# Numerals

A numeral is kept as it is spelt: sign, digits before and after the point, exponent.  Its `value` is
computed in double precision from left to right, one digit at a time, so a long numeral carries the
rounding of every step.
-/

namespace CssPrune

inductive Sign where
  | plus
  | minus
deriving DecidableEq, Repr

/-- The power of ten behind a numeral. -/
structure Exponent where
  sign : Option Sign
  digits : List Char
deriving DecidableEq, Repr

/-- `fraction` is empty when no point is written: a point has a digit after it. -/
structure Numeral where
  sign : Option Sign
  whole : List Char
  fraction : List Char
  exponent : Option Exponent
deriving DecidableEq, Repr

namespace Numeral

def digitValue (c : Char) : Nat := c.toNat - '0'.toNat

/-- The number a run of digits stands for. -/
def digitsValue (ds : List Char) : Nat := ds.foldl (fun n d => 10 * n + digitValue d) 0

/-- The number that a run of digits stands for, rounded at every digit. -/
def floatOfDigits (ds : List Char) : Float :=
  ds.foldl (fun x d => x * 10 + Float.ofNat (digitValue d)) 0

/-- Each digit after the point counts a tenth of the one before it. -/
def floatOfFraction (ds : List Char) : Float :=
  (ds.foldl (fun (x, unit) d => (x + Float.ofNat (digitValue d) * unit, unit * 0.1))
    ((0, 0.1) : Float × Float)).1

/-- The number, or the negative one behind a minus. -/
def signed (s : Option Sign) (x : Float) : Float :=
  match s with
  | some .minus => (-1) * x
  | _ => x

/-- The number that a numeral stands for, as far as double precision carries it. -/
def value (n : Numeral) : Float :=
  let base := signed n.sign (floatOfDigits n.whole + floatOfFraction n.fraction)
  match n.exponent with
  | none => base
  | some e => base * Float.pow 10 (signed e.sign (floatOfDigits e.digits))

/-- The whole number a numeral without point and exponent stands for, cut to 32 bits. -/
def integer? (n : Numeral) : Option Int :=
  if n.fraction = [] ∧ n.exponent = none then
    let k : Int := digitsValue n.whole
    some (match n.sign with
      | some .minus => max (-k) (-Int.pow 2 31)
      | _ => min k (Int.pow 2 31 - 1))
  else none

def hasSign (n : Numeral) : Bool := n.sign.isSome

end Numeral

end CssPrune
