/-!
# The shortest decimal of a binary number

A binary floating-point number stands for every real that rounds to it.  `shortest` picks, among
the decimals in that interval, one with the fewest digits, and of those the nearest to the number.
Which of two equally near ones it takes is a choice, as is the layout of the digits; a `FloatFormat`
makes both.
-/

namespace CssPrune.Decimal

/-- The widths of the stored fields of a binary format. -/
structure BinaryFormat where
  fractionBits : Nat
  exponentBits : Nat

def binary32 : BinaryFormat := ⟨23, 8⟩

def binary64 : BinaryFormat := ⟨52, 11⟩

/-- A number `mantissa · 2 ^ exponent`.  `narrowBelow` holds where the number below is only half as
far away as the number above. -/
structure Binary where
  mantissa : Nat
  exponent : Int
  narrowBelow : Bool

/-- The kinds of numbers that a format stores. -/
inductive FloatClass where
  | nan
  | infinite (negative : Bool)
  | zero (negative : Bool)
  | finite (negative : Bool) (value : Binary)

/-- Reads the three stored fields. -/
def BinaryFormat.decode (f : BinaryFormat) (bits : Nat) : FloatClass :=
  let fraction := bits % Nat.pow 2 f.fractionBits
  let stored := bits / Nat.pow 2 f.fractionBits % Nat.pow 2 f.exponentBits
  let negative := bits / Nat.pow 2 (f.fractionBits + f.exponentBits) % 2 = 1
  let lowest : Int := 2 - Nat.pow 2 (f.exponentBits - 1) - f.fractionBits
  if stored = Nat.pow 2 f.exponentBits - 1 then
    if fraction = 0 then .infinite negative else .nan
  else if stored = 0 then
    if fraction = 0 then .zero negative else .finite negative ⟨fraction, lowest, false⟩
  else
    .finite negative
      ⟨Nat.pow 2 f.fractionBits + fraction, lowest + (stored - 1 : Nat),
        fraction = 0 && 1 < stored⟩

/-- Digits `d₁d₂…`, read as `d₁.d₂… · 10 ^ exponent`. -/
structure Digits where
  digits : List Char
  exponent : Int

/-- An interval `low … high` around `value`, all three over the denominator `den`. -/
structure Interval where
  low : Nat
  value : Nat
  high : Nat
  den : Nat
  closed : Bool

/-- The reals that round to the number; the two ends do so when the mantissa is even. -/
def Binary.interval (b : Binary) : Interval :=
  let up := Nat.pow 2 (b.exponent - 2).toNat
  { low := (4 * b.mantissa - if b.narrowBelow then 1 else 2) * up
    value := 4 * b.mantissa * up
    high := (4 * b.mantissa + 2) * up
    den := Nat.pow 2 (2 - b.exponent).toNat
    closed := b.mantissa % 2 = 0 }

/-- The exponent of ten of the leading digit. -/
def Interval.leading (i : Interval) : Int :=
  if i.den ≤ i.value then (Nat.toDigits 10 (i.value / i.den)).length - 1
  else -((Nat.toDigits 10 ((i.den - 1) / i.value)).length : Int)

/-- Of two decimals that are equally near: the larger one, or the one whose last digit is even. -/
inductive Tie where
  | away
  | even
deriving DecidableEq

/-- Whether `below + 1` is taken instead of `below`, when the number lies in front of the middle
between them, on it or behind it. -/
def Tie.up (t : Tie) (side : Ordering) (below : Nat) : Bool :=
  match side, t with
  | .lt, _ => false
  | .gt, _ => true
  | .eq, .away => true
  | .eq, .even => below % 2 = 1

/-- The multiple of `10 ^ scale` that lies in the interval and is nearest to its value, as the
factor of `10 ^ scale`; only the two neighbours of the value can be it. -/
def Interval.onGrid (t : Tie) (i : Interval) (scale : Int) : Option Nat :=
  let step := i.den * Nat.pow 10 scale.toNat
  let unit := Nat.pow 10 (-scale).toNat
  let inside (d : Nat) : Bool :=
    if i.closed then i.low * unit ≤ d * step && d * step ≤ i.high * unit
    else i.low * unit < d * step && d * step < i.high * unit
  let below := i.value * unit / step
  match inside below, inside (below + 1) with
  | true, true =>
    let side := compare (2 * i.value * unit) ((2 * below + 1) * step)
    some (if t.up side below then below + 1 else below)
  | true, false => some below
  | false, true => some (below + 1)
  | false, false => none

/-- Tries ever finer grids, `fuel` of them. -/
def Interval.search (t : Tie) (i : Interval) (scale : Int) : Nat → Nat × Int
  | 0 => (i.value * Nat.pow 10 (-scale).toNat / (i.den * Nat.pow 10 scale.toNat), scale)
  | fuel + 1 =>
    match i.onGrid t scale with
    | some d => (d, scale)
    | none => i.search t (scale - 1) fuel

/-- Seventeen digits tell any two numbers of either format apart. -/
def Binary.shortest (t : Tie) (b : Binary) : Digits :=
  let i := b.interval
  let (d, scale) := i.search t i.leading 17
  let written := Nat.toDigits 10 d
  { digits := (written.reverse.dropWhile (· = '0')).reverse
    exponent := scale + (written.length - 1 : Nat) }

/-- Numbers whose leading digit stands for `10 ^ least` up to `10 ^ most` are written without an
exponent. -/
structure FloatFormat where
  least : Int
  most : Int
  tie : Tie
  /-- Whether a positive exponent shows its sign. -/
  plus : Bool

/-- The letter, the sign where the format writes one, and the exponent. -/
def FloatFormat.exponentText (f : FloatFormat) (e : Int) : String :=
  "e" ++ (if f.plus && 0 < e then "+" else "") ++ toString e

/-- Positional texts keep a digit after the point; scientific ones drop the point when one digit is
all there is. -/
def FloatFormat.digitsText (f : FloatFormat) (d : Digits) : String :=
  let n := d.digits.length
  if d.exponent < f.least || f.most < d.exponent then
    let tail := d.digits.drop 1
    String.ofList (d.digits.take 1) ++ (if tail = [] then "" else "." ++ String.ofList tail) ++
      f.exponentText d.exponent
  else if d.exponent < 0 then
    "0." ++ String.ofList (List.replicate (-d.exponent - 1).toNat '0' ++ d.digits)
  else
    let whole := d.exponent.toNat + 1
    let tail := d.digits.drop whole
    String.ofList (d.digits.take whole ++ List.replicate (whole - n) '0') ++ "." ++
      (if tail = [] then "0" else String.ofList tail)

/-- The text of a number of any kind, its sign first. -/
def FloatFormat.classText (f : FloatFormat) : FloatClass → String
  | .nan => "NaN"
  | .infinite negative => (if negative then "-" else "") ++ "inf"
  | .zero negative => (if negative then "-" else "") ++ "0.0"
  | .finite negative b => (if negative then "-" else "") ++ f.digitsText (b.shortest f.tie)

def FloatFormat.text32 (f : FloatFormat) (x : Float32) : String :=
  f.classText (binary32.decode x.toBits.toNat)

def FloatFormat.text64 (f : FloatFormat) (x : Float) : String :=
  f.classText (binary64.decode x.toBits.toNat)

end CssPrune.Decimal
