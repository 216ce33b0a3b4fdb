import DiagramTour.Text.Ranges

/-!
# White space

The 25 characters with the Unicode property White_Space separate tokens.
-/

namespace DiagramTour.Text

/-- The ranges of White_Space. -/
def blankRanges : List (Nat × Nat) :=
  [(0x09, 0x0D), (0x20, 0x20), (0x85, 0x85), (0xA0, 0xA0), (0x1680, 0x1680), (0x2000, 0x200A),
   (0x2028, 0x2029), (0x202F, 0x202F), (0x205F, 0x205F), (0x3000, 0x3000)]

/-- A character that separates tokens. -/
def isBlank (c : Char) : Bool :=
  inRanges blankRanges c.toNat

example : ascending blankRanges = true ∧ rangesSize blankRanges = 25 := by decide

/-- Every character that core calls white space is blank. -/
theorem isBlank_of_isWhitespace (c : Char) (h : c.isWhitespace = true) : isBlank c = true := by
  simp [Char.isWhitespace] at h
  rcases h with ((h | h) | h) | h <;> subst h <;> decide

/-- A zero-width space and a letter are not blank. -/
theorem isBlank_zero_width : isBlank '\u200b' = false ∧ isBlank 'a' = false := by decide

end DiagramTour.Text
