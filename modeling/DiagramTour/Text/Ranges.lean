/-!
# Tables of character ranges

A property of characters is carried as a list of closed ranges of code points, ascending and
apart, and looked up by membership.
-/

namespace DiagramTour.Text

/-- Whether a code point lies in one of the ranges. -/
def inRanges (ranges : List (Nat × Nat)) (n : Nat) : Bool :=
  ranges.any fun r => r.1 ≤ n && n ≤ r.2

/-- Every range is in order, and ends at least two before the next one starts. -/
def ascending : List (Nat × Nat) → Bool
  | [] => true
  | [r] => r.1 ≤ r.2
  | r :: s :: rest => r.1 ≤ r.2 && r.2 + 1 < s.1 && ascending (s :: rest)

/-- How many code points the ranges hold together. -/
def rangesSize (ranges : List (Nat × Nat)) : Nat :=
  ranges.foldl (fun n r => n + (r.2 + 1 - r.1)) 0

/-- Membership in a table is membership in one of its ranges. -/
theorem inRanges_iff (ranges : List (Nat × Nat)) (n : Nat) :
    inRanges ranges n = true ↔ ∃ r ∈ ranges, r.1 ≤ n ∧ n ≤ r.2 := by
  simp [inRanges]

end DiagramTour.Text
