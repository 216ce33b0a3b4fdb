import DiagramTour.Number.Power

/-!
# Numbers written with digits

A run of decimal digits is a natural number, and digits around a point are the double nearest to
the number that they write.
-/

namespace DiagramTour.Number

/-- The value of a decimal digit. -/
def digitValue (c : Char) : Nat :=
  c.toNat - 0x30

/-- The number that a run of decimal digits writes. -/
def natOfDigits (ds : List Char) : Nat :=
  ds.foldl (fun n c => 10 * n + digitValue c) 0

/-- The double nearest to the number written `whole.fraction`. -/
def floatOfDigits (whole fraction : List Char) : Float :=
  Float.ofScientific (natOfDigits (whole ++ fraction)) true fraction.length

/-- A natural number written with digits only, or with a plus sign before them. -/
def nat? (text : String) : Option Nat :=
  let ds := match text.toList with
    | '+' :: rest => rest
    | cs => cs
  if ds.isEmpty || !ds.all Char.isDigit then none else some (natOfDigits ds)

/-- A whole number with an optional sign. -/
def int? (text : String) : Option Int :=
  match text.toList with
  | '-' :: rest =>
    if rest.isEmpty || !rest.all Char.isDigit then none else some (-(natOfDigits rest : Int))
  | _ => (nat? text).map Int.ofNat

/-- A natural number that fits 64 bits. -/
def nat64? (text : String) : Option Nat :=
  (nat? text).filter (· < twoTo 64)

/-- Whether a whole number fits 64 bits with a sign. -/
def fits64 (n : Int) : Bool :=
  -(twoTo 63 : Int) ≤ n && n < (twoTo 63 : Int)

/-- A whole number that fits 64 bits with a sign. -/
def int64? (text : String) : Option Int64 :=
  ((int? text).filter fits64).map Int64.ofInt

end DiagramTour.Number
