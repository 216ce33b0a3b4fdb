import DiagramTour.Token.Scan
import Mathlib.Tactic

/-!
# Where a token ends

The first token of a text is found without looking far past its end.  What is recognised is the
same once the text behind the token is taken away, and the same again once a *fence* stands there:
a character that no token but a quoted text goes on with.  Both hold of every kind of token except
the raw block, which has to see the end of its last line.
-/

namespace DiagramTour

/-! ## Classes of characters -/

/-- A character that goes on with no word, number or operator. -/
def IsFence (z : Char) : Prop :=
  Text.continuesWord z = false ∧ z ∉ ['-', '.', '%', '=', '&', '|', '>', '<']

instance (z : Char) : Decidable (IsFence z) :=
  inferInstanceAs (Decidable (_ ∧ _))

theorem IsFence.ne {z : Char} (h : IsFence z) :
    z ≠ '-' ∧ z ≠ '.' ∧ z ≠ '%' ∧ z ≠ '=' ∧ z ≠ '&' ∧ z ≠ '|' ∧ z ≠ '>' ∧ z ≠ '<' := by
  simpa [IsFence] using h.2

theorem IsFence.ne_of_continuesWord {z c : Char} (h : IsFence z)
    (hc : Text.continuesWord c = true) : z ≠ c := by
  rintro rfl
  rw [h.1] at hc
  cases hc

namespace Text

theorem toNat_lt_of_isDigit {c : Char} (h : c.isDigit = true) : 0x30 ≤ c.toNat ∧ c.toNat ≤ 0x39 := by
  simp only [Char.isDigit, ge_iff_le, Bool.and_eq_true, decide_eq_true_eq,
    UInt32.le_iff_toNat_le] at h
  exact h

theorem isAlpha_iff {c : Char} :
    c.isAlpha = true ↔ ('A' ≤ c ∧ c ≤ 'Z') ∨ ('a' ≤ c ∧ c ≤ 'z') := by
  rw [show c.isAlpha = (decide ('A' ≤ c ∧ c ≤ 'Z') || (decide ('a' ≤ c) && decide (c ≤ 'z')))
    from rfl]
  simp only [Bool.or_eq_true, Bool.and_eq_true, decide_eq_true_eq]

theorem toNat_le_of_isAlpha {c : Char} (h : c.isAlpha = true) : 0x41 ≤ c.toNat := by
  rcases isAlpha_iff.1 h with h | h
  · exact h.1
  · exact Nat.le_trans (by decide : 0x41 ≤ 'a'.toNat) h.1

theorem continuesWord_of_isDigit {c : Char} (h : c.isDigit = true) : continuesWord c = true := by
  have hlt : c.toNat < 0x80 := by
    have := (toNat_lt_of_isDigit h).2
    omega
  simp [continuesWord, isAlphanumeric, isNumeric, hlt, h]

theorem continuesWord_of_isAlpha {c : Char} (h : c.isAlpha = true) : continuesWord c = true :=
  continuesWord_of_startsWord c (by simp [startsWord, isAlphabetic_of_isAlpha c h])

theorem continuesWord_of_isHexDigit {c : Char} (h : isHexDigit c = true) :
    continuesWord c = true := by
  simp only [isHexDigit, Bool.or_eq_true, Bool.and_eq_true, decide_eq_true_eq] at h
  rcases h with (h | h) | h
  · exact continuesWord_of_isDigit h
  · exact continuesWord_of_isAlpha (isAlpha_iff.2 (.inr ⟨h.1, Char.le_trans h.2 (by decide)⟩))
  · exact continuesWord_of_isAlpha (isAlpha_iff.2 (.inl ⟨h.1, Char.le_trans h.2 (by decide)⟩))

/-- A digit begins no word. -/
theorem startsWord_of_isDigit {c : Char} (h : c.isDigit = true) : startsWord c = false := by
  obtain ⟨hlo, hhi⟩ := toNat_lt_of_isDigit h
  have hchar : c ≠ '_' := by
    rintro rfl
    revert h
    decide
  have halpha : c.isAlpha = false := Bool.eq_false_iff.2 fun ha => by
    have := toNat_le_of_isAlpha ha
    omega
  have hlt : c.toNat < 0x80 := by omega
  simp [startsWord, isAlphabetic, hlt, halpha, hchar]

/-- Two tables of ranges have no code point in common. -/
def apart (as bs : List (Nat × Nat)) : Bool :=
  as.all fun a => bs.all fun b => a.2 < b.1 || b.2 < a.1

theorem inRanges_of_apart {as bs : List (Nat × Nat)} {n : Nat} (h : apart as bs = true)
    (ha : inRanges as n = true) : inRanges bs n = false := by
  obtain ⟨a, hmem, hlo, hhi⟩ := (inRanges_iff as n).1 ha
  refine Bool.eq_false_iff.2 fun hb => ?_
  obtain ⟨b, hmem', hlo', hhi'⟩ := (inRanges_iff bs n).1 hb
  have := List.all_eq_true.1 (List.all_eq_true.1 h a hmem) b hmem'
  simp only [Bool.or_eq_true, decide_eq_true_eq] at this
  omega

theorem blankRanges_apart : apart blankRanges alphabeticRanges = true ∧
    apart blankRanges numericRanges = true := by
  decide +kernel

/-- No blank stands inside a word. -/
theorem continuesWord_of_isBlank {c : Char} (h : isBlank c = true) : continuesWord c = false := by
  have halpha := inRanges_of_apart blankRanges_apart.1 h
  have hnum := inRanges_of_apart blankRanges_apart.2 h
  obtain ⟨r, hmem, hlo, hhi⟩ := (inRanges_iff _ _).1 h
  have hchar : c ≠ '_' := by
    rintro rfl
    revert h
    decide
  simp only [continuesWord, isAlphanumeric, isAlphabetic, isNumeric, halpha, hnum,
    Bool.or_eq_false_iff]
  -- Below U+0080 a blank lies under the digits
  have hlow : c.toNat < 0x80 → c.toNat ≤ 0x20 := by
    intro hlt
    simp only [blankRanges, List.mem_cons, List.not_mem_nil, or_false] at hmem
    rcases hmem with rfl | rfl | rfl | rfl | rfl | rfl | rfl | rfl | rfl | rfl <;>
      simp only at hlo hhi <;> omega
  refine ⟨⟨?_, ?_⟩, by simpa using hchar⟩
  · split
    · rename_i hlt
      have := hlow hlt
      refine Bool.eq_false_iff.2 fun hc => ?_
      have := toNat_le_of_isAlpha hc
      omega
    · rfl
  · split
    · rename_i hlt
      have := hlow hlt
      refine Bool.eq_false_iff.2 fun hc => ?_
      have := (toNat_lt_of_isDigit hc).1
      omega
    · rfl

end Text

/-- A blank ends every token. -/
theorem isFence_of_isBlank {c : Char} (h : Text.isBlank c = true) : IsFence c := by
  refine ⟨Text.continuesWord_of_isBlank h, fun hmem => ?_⟩
  simp only [List.mem_cons, List.not_mem_nil, or_false] at hmem
  rcases hmem with rfl | rfl | rfl | rfl | rfl | rfl | rfl | rfl <;> revert h <;> decide

end DiagramTour
