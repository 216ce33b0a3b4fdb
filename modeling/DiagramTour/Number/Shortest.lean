import DiagramTour.Number.Power

/-!
# The shortest decimal that reads back

A finite double stands for every real number nearer to it than to its neighbours.  Among the
decimals in that interval the one with the fewest digits is chosen, and of several with equally
many digits the one nearest to the double.  All comparisons are made on natural numbers.
-/

namespace DiagramTour.Number

/-- A decimal number `digits * 10 ^ exponent`, without sign. -/
structure Decimal where
  digits : Nat
  exponent : Int
deriving DecidableEq, Repr, Inhabited

/-- The magnitude of a finite double as `mantissa * 2 ^ exponent`. -/
structure Dyadic where
  mantissa : Nat
  exponent : Int
  /-- The next smaller double is only half as far away as the next larger one. -/
  narrowBelow : Bool
deriving DecidableEq, Repr, Inhabited

/-- Reads the fields of the 64-bit format. -/
def Dyadic.ofFloat (x : Float) : Dyadic :=
  let bits := x.toBits.toNat
  let fraction := bits % twoTo 52
  let biased : Nat := bits / twoTo 52 % twoTo 11
  if biased = 0 then ⟨fraction, -1074, false⟩
  else ⟨twoTo 52 + fraction, (biased : Int) - 1075, fraction == 0 && biased != 1⟩

/-- Whether the sign bit is set. -/
def isNegative (x : Float) : Bool :=
  x.toBits.toNat / twoTo 63 == 1

/-- The decimal digits of a number, most significant first. -/
def digitsOf (n : Nat) : List Char :=
  Nat.toDigits 10 n

namespace Dyadic

/-- Ends of the interval that rounds to the double, in quarters of its last place. -/
def bounds (d : Dyadic) : Nat × Nat :=
  (if d.narrowBelow then 4 * d.mantissa - 1 else 4 * d.mantissa - 2, 4 * d.mantissa + 2)

/-- Numerator and denominator of a quarter of the last place. -/
def quarter (d : Dyadic) : Nat × Nat :=
  (twoTo (d.exponent - 2).toNat, twoTo (2 - d.exponent).toNat)

/-- Whether `digits * 10 ^ scale` lies in the interval; its ends belong to it when the mantissa is
even. -/
def holds (d : Dyadic) (scale : Int) (digits : Nat) : Bool :=
  let (num, den) := d.quarter
  let unit := num * tenTo (-scale).toNat
  let point := digits * tenTo scale.toNat * den
  let (low, high) := d.bounds
  if d.mantissa % 2 = 0 then low * unit ≤ point && point ≤ high * unit
  else low * unit < point && point < high * unit

/-- The decimal exponent of the leading digit. -/
def magnitude (d : Dyadic) : Int :=
  let num := 4 * d.mantissa * d.quarter.1
  let den := d.quarter.2
  if den ≤ num then ((digitsOf (num / den)).length : Int) - 1
  else -((digitsOf ((den + num - 1) / num - 1)).length : Int)

/-- The better of the double's two neighbours on the grid of multiples of `10 ^ scale`, if one of
them lies in the interval; the nearer one wins, and a tie goes to the even one. -/
def onGrid? (d : Dyadic) (scale : Int) : Option Decimal :=
  let num := 4 * d.mantissa * d.quarter.1 * tenTo (-scale).toNat
  let den := d.quarter.2 * tenTo scale.toNat
  let below := num / den
  let past := num % den
  match d.holds scale below, d.holds scale (below + 1) with
  | true, true =>
    -- Both neighbours read back: the nearer one, and the even one of two equally near
    let up := if 2 * past = den then below % 2 == 1 else decide (den < 2 * past)
    some ⟨if up then below + 1 else below, scale⟩
  | true, false => some ⟨below, scale⟩
  | false, true => some ⟨below + 1, scale⟩
  | false, false => none

/-- The decimal with the fewest digits in the interval; seventeen digits always suffice. -/
def shortest (d : Dyadic) : Decimal :=
  if d.mantissa = 0 then ⟨0, 0⟩
  else
    -- From one digit to seventeen
    let top := d.magnitude
    ((List.range 17).findSome? fun k : Nat => d.onGrid? (top - k)).getD ⟨d.mantissa, d.exponent⟩

end Dyadic

/-- The shortest decimal that reads back as the magnitude of a finite double. -/
def shortest (x : Float) : Decimal :=
  (Dyadic.ofFloat x).shortest

/-! ## Writing a decimal -/

/-- How a format writes a number that is not a whole one. -/
structure FloatFormat where
  /-- Least exponent of the leading digit that is written without an exponent. -/
  lowest : Int
  /-- Greatest exponent of the leading digit that is written without an exponent. -/
  highest : Int
  /-- Text between the digits and a positive exponent. -/
  up : String
  /-- Text between the digits and the magnitude of a negative exponent. -/
  down : String
  /-- What follows a whole number written without an exponent. -/
  whole : String

/-- A run of zeros. -/
def zeros (n : Nat) : String :=
  String.ofList (List.replicate n '0')

/-- The digits without the zeros at their end, and how many zeros were dropped. -/
def trimZeros (ds : List Char) : List Char × Nat :=
  let kept := (ds.reverse.dropWhile (· == '0')).reverse
  (kept, ds.length - kept.length)

/-- The digits `ds`, the first of which counts `10 ^ top`. -/
def FloatFormat.place (f : FloatFormat) (ds : List Char) (top : Int) : String :=
  if top < f.lowest || f.highest < top then
    let fraction := if ds.length ≤ 1 then "" else "." ++ String.ofList (ds.drop 1)
    let exponent := if top < 0 then f.down ++ toString (-top) else f.up ++ toString top
    String.ofList (ds.take 1) ++ fraction ++ exponent
  else if top < 0 then "0." ++ zeros (-top - 1).toNat ++ String.ofList ds
  else
    let before := top.toNat + 1
    if ds.length ≤ before then String.ofList ds ++ zeros (before - ds.length) ++ f.whole
    else String.ofList (ds.take before) ++ "." ++ String.ofList (ds.drop before)

/-- The text of a finite double: a sign if the sign bit is set, then the shortest decimal. -/
def FloatFormat.write (f : FloatFormat) (x : Float) : String :=
  let sign := if isNegative x then "-" else ""
  let d := shortest x
  if d.digits = 0 then sign ++ "0" ++ f.whole
  else
    let (ds, dropped) := trimZeros (digitsOf d.digits)
    sign ++ f.place ds (d.exponent + dropped + ds.length - 1)

end DiagramTour.Number
