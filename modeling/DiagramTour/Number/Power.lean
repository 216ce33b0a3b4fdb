/-!
# Powers

The powers by which numbers are scaled and bounded.
-/

namespace DiagramTour.Number

/-- A power of two. -/
def twoTo (k : Nat) : Nat :=
  Nat.pow 2 k

/-- A power of ten. -/
def tenTo (k : Nat) : Nat :=
  Nat.pow 10 k

end DiagramTour.Number
