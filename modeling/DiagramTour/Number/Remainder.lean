import DiagramTour.Number.Shortest

/-!
# The remainder of doubles

The remainder has the sign of the dividend and is exact: both numbers are whole multiples of one
power of two, and the remainder of the multiples is again a double.
-/

namespace DiagramTour.Number

/-- The magnitude of a remainder as a multiple of a power of two. -/
def Dyadic.remainder (a b : Dyadic) : Nat × Int :=
  -- Both as multiples of the finer of the two last places
  let e := min a.exponent b.exponent
  let m := a.mantissa * twoTo (a.exponent - e).toNat
  let n := b.mantissa * twoTo (b.exponent - e).toNat
  (m % n, e)

/-- The remainder of a division by a number other than zero, rounded toward zero. -/
def remainder (x y : Float) : Float :=
  if !x.isFinite || y.isNaN then 0.0 / 0.0
  else if y.isInf then x
  else
    let (n, e) := (Dyadic.ofFloat x).remainder (Dyadic.ofFloat y)
    let r := (Float.ofNat n).scaleB e
    if isNegative x then -r else r

end DiagramTour.Number
