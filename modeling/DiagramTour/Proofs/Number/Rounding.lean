import Mathlib.Algebra.Order.Ring.Int

/-!
# Whole numbers rounded to a double

A double holds 53 binary places of a whole number.  Further places are rounded away, to the nearest
number that is left and from halfway to the even one.  Rounding keeps the order of two numbers but can
make them equal.

## Architecture

- `Number.halfEven` rounds away some binary places; it is monotone, and trailing zeros make no
  difference to it.
- `Number.nearest` rounds away as many as have no room, and `Number.rounded` does the same with a sign.
- `Number.rounded_mono` is all that comparing needs.  Up to `2 ^ 53` nothing is rounded, and numbers that
  are far apart stay different.
-/

namespace DiagramTour.Number

variable {m n s : Nat}

/-! ## Rounding places away -/

/-- A number without its last binary places, rounded to the nearest and from halfway to the even
one. -/
def halfEven (n s : Nat) : Nat :=
  if 2 * (n % 2 ^ s) < 2 ^ s ∨ 2 * (n % 2 ^ s) = 2 ^ s ∧ n / 2 ^ s % 2 = 0 then n / 2 ^ s
  else n / 2 ^ s + 1

theorem div_le_halfEven (n s : Nat) : n / 2 ^ s ≤ halfEven n s := by
  unfold halfEven
  split <;> omega

theorem halfEven_le (n s : Nat) : halfEven n s ≤ n / 2 ^ s + 1 := by
  unfold halfEven
  split <;> omega

@[simp] theorem halfEven_zero (n : Nat) : halfEven n 0 = n := by
  simp [halfEven, Nat.mod_one]

/-- Rounding away the same places keeps the order. -/
theorem halfEven_mono (h : m ≤ n) : halfEven m s ≤ halfEven n s := by
  rcases (Nat.div_le_div_right (c := 2 ^ s) h).lt_or_eq with hlt | heq
  · exact (halfEven_le m s).trans (hlt.trans_le (div_le_halfEven n s))
  · -- In the same interval the greater number is the further along
    have hmod : m % 2 ^ s ≤ n % 2 ^ s := by
      have hm := Nat.div_add_mod m (2 ^ s)
      have hn := Nat.div_add_mod n (2 ^ s)
      rw [heq] at hm
      omega
    unfold halfEven
    rw [heq]
    split <;> split <;> omega

/-- The rounded number is no further away than half of the last place that is left. -/
theorem halfEven_near (n s : Nat) : 2 * n ≤ 2 * (halfEven n s * 2 ^ s) + 2 ^ s ∧
    2 * (halfEven n s * 2 ^ s) ≤ 2 * n + 2 ^ s := by
  have hn : n / 2 ^ s * 2 ^ s + n % 2 ^ s = n := Nat.div_add_mod' n (2 ^ s)
  have hlt : n % 2 ^ s < 2 ^ s := Nat.mod_lt n (Nat.two_pow_pos s)
  unfold halfEven
  split
  · omega
  · rw [Nat.add_mul, Nat.one_mul]
    omega

/-- Zeros behind a number are rounded away without a trace. -/
theorem halfEven_mul_pow (n s j : Nat) : halfEven (n * 2 ^ j) (s + j) = halfEven n s := by
  have hpos : 0 < 2 ^ j := Nat.two_pow_pos j
  have hdiv : n * 2 ^ j / 2 ^ (s + j) = n / 2 ^ s := by
    rw [pow_add, Nat.mul_div_mul_right _ _ hpos]
  have hmod : 2 * (n * 2 ^ j % 2 ^ (s + j)) = 2 * (n % 2 ^ s) * 2 ^ j := by
    rw [pow_add, Nat.mul_mod_mul_right, Nat.mul_assoc]
  unfold halfEven
  rw [hdiv, hmod, pow_add]
  simp only [Nat.mul_lt_mul_right hpos, Nat.mul_left_inj hpos.ne']

/-! ## Rounding to a double -/

/-- How many binary places of a number a double has no room for. -/
def excess (n : Nat) : Nat :=
  n.log2 - 52

/-- A natural number rounded to a double. -/
def nearest (n : Nat) : Nat :=
  halfEven n (excess n) * 2 ^ excess n

theorem log2_lt_of_lt {k : Nat} (h : n < 2 ^ (k + 1)) : n.log2 < k + 1 := by
  rcases Nat.eq_zero_or_pos n with rfl | hpos
  · exact Nat.succ_pos k
  · exact (Nat.log2_lt hpos.ne').mpr h

/-- The places that are left are 53. -/
theorem excess_add (h : 2 ^ 52 ≤ n) : excess n + 52 = n.log2 := by
  have hlog : 52 ≤ n.log2 := (Nat.le_log2 (by omega)).mpr h
  unfold excess
  omega

theorem nearest_of_lt (h : n < 2 ^ 53) : nearest n = n := by
  have hlog : n.log2 < 53 := log2_lt_of_lt h
  have hexcess : excess n = 0 := by
    unfold excess
    omega
  rw [nearest, hexcess, halfEven_zero, pow_zero, mul_one]

/-- Of a number with more than 53 places the first 53 are left. -/
theorem div_excess_bounds (h : 2 ^ 52 ≤ n) :
    2 ^ 52 ≤ n / 2 ^ excess n ∧ n / 2 ^ excess n < 2 ^ 53 := by
  have hlog := excess_add h
  constructor
  · rw [Nat.le_div_iff_mul_le (Nat.two_pow_pos _), ← pow_add, add_comm, hlog]
    exact Nat.log2_self_le (by omega)
  · rw [Nat.div_lt_iff_lt_mul (Nat.two_pow_pos _), ← pow_add, show 53 + excess n = n.log2 + 1 by omega]
    exact Nat.lt_log2_self

theorem halfEven_excess_bounds (h : 2 ^ 52 ≤ n) :
    2 ^ 52 ≤ halfEven n (excess n) ∧ halfEven n (excess n) ≤ 2 ^ 53 := by
  obtain ⟨hlow, hhigh⟩ := div_excess_bounds h
  have hle := div_le_halfEven n (excess n)
  have hge := halfEven_le n (excess n)
  omega

/-- A number stays between the powers of two around it. -/
theorem nearest_bounds (hne : n ≠ 0) : 2 ^ n.log2 ≤ nearest n ∧ nearest n ≤ 2 ^ (n.log2 + 1) := by
  rcases lt_or_ge n (2 ^ 52) with h | h
  · rw [nearest_of_lt (h.trans (by decide))]
    exact ⟨Nat.log2_self_le hne, Nat.lt_log2_self.le⟩
  · obtain ⟨hlow, hhigh⟩ := halfEven_excess_bounds h
    rw [nearest, ← excess_add h, Nat.add_comm, add_right_comm, pow_add, pow_add]
    exact ⟨Nat.mul_le_mul_right _ hlow, Nat.mul_le_mul_right _ hhigh⟩

/-- Rounding keeps the order. -/
theorem nearest_mono (h : m ≤ n) : nearest m ≤ nearest n := by
  rcases Nat.eq_zero_or_pos m with rfl | hm
  · exact Nat.zero_le _
  have hn : 0 < n := hm.trans_le h
  have hlog : m.log2 ≤ n.log2 :=
    (Nat.le_log2 hn.ne').mpr ((Nat.log2_self_le hm.ne').trans h)
  rcases hlog.lt_or_eq with hlt | heq
  · -- A power of two comes between them
    calc nearest m ≤ 2 ^ (m.log2 + 1) := (nearest_bounds hm.ne').2
      _ ≤ 2 ^ n.log2 := Nat.pow_le_pow_right (by decide) hlt
      _ ≤ nearest n := (nearest_bounds hn.ne').1
  · unfold nearest excess
    rw [heq]
    exact Nat.mul_le_mul_right _ (halfEven_mono h)

/-! ## Signs -/

/-- A whole number rounded to a double. -/
def rounded (k : Int) : Int :=
  k.sign * nearest k.natAbs

theorem rounded_natCast (n : Nat) : rounded n = nearest n := by
  rcases Nat.eq_zero_or_pos n with rfl | hpos
  · rfl
  · rw [rounded, Int.sign_natCast_of_ne_zero hpos.ne', Int.natAbs_natCast, one_mul]

theorem rounded_neg (k : Int) : rounded (-k) = -rounded k := by
  rw [rounded, rounded, Int.sign_neg, Int.natAbs_neg, Int.neg_mul]

/-- Up to `2 ^ 53` nothing is rounded. -/
theorem rounded_of_natAbs_le {k : Int} (h : k.natAbs ≤ 2 ^ 53) : rounded k = k := by
  have hnearest : nearest k.natAbs = k.natAbs := by
    rcases h.lt_or_eq with hlt | heq
    · exact nearest_of_lt hlt
    · rw [heq]
      decide
  rw [rounded, hnearest, Int.sign_mul_natAbs]

/-- Rounding keeps the order, whatever the signs. -/
theorem rounded_mono {k l : Int} (h : k ≤ l) : rounded k ≤ rounded l := by
  -- Only two numbers of one sign need the order of their magnitudes
  obtain ⟨m, rfl | rfl⟩ := k.eq_nat_or_neg <;> obtain ⟨n, rfl | rfl⟩ := l.eq_nat_or_neg <;>
    simp only [rounded_neg, rounded_natCast]
  · exact Int.ofNat_le.mpr (nearest_mono (Int.ofNat_le.mp h))
  · obtain ⟨rfl, rfl⟩ : m = 0 ∧ n = 0 := by omega
    decide
  · omega
  · exact Int.neg_le_neg (Int.ofNat_le.mpr (nearest_mono (by omega)))

/-- Two numbers that are equal or rounded to different ones keep their order. -/
theorem rounded_lt_iff {k l : Int} (h : k = l ∨ rounded k ≠ rounded l) :
    rounded k < rounded l ↔ k < l := by
  rcases h with rfl | hne
  · exact iff_of_false (lt_irrefl _) (lt_irrefl _)
  constructor
  · intro hlt
    by_contra hge
    exact absurd (rounded_mono (not_lt.mp hge)) (not_le.mpr hlt)
  · exact fun hlt => lt_of_le_of_ne (rounded_mono hlt.le) hne

theorem rounded_le_iff {k l : Int} (h : k = l ∨ rounded k ≠ rounded l) :
    rounded k ≤ rounded l ↔ k ≤ l := by
  rw [← not_lt, ← not_lt, rounded_lt_iff (h.imp Eq.symm Ne.symm)]

/-- Rounding a number of 64 bits moves it by 1024 at most. -/
theorem natAbs_rounded_sub_le {k : Int} (h : k.natAbs < 2 ^ 64) : (rounded k - k).natAbs ≤ 2 ^ 10 := by
  have hexcess : excess k.natAbs ≤ 11 := by
    have hlog : k.natAbs.log2 < 64 := log2_lt_of_lt h
    unfold excess
    omega
  have hpow : 2 ^ excess k.natAbs ≤ 2 ^ 11 := Nat.pow_le_pow_right (by decide) hexcess
  obtain ⟨hlow, hhigh⟩ := halfEven_near k.natAbs (excess k.natAbs)
  -- Half of the last place is at most half of `2 ^ 11`
  obtain ⟨n, rfl | rfl⟩ := k.eq_nat_or_neg <;>
    simp only [rounded_neg, rounded_natCast, nearest, Int.natAbs_neg, Int.natAbs_natCast] at * <;>
    omega

/-- Numbers of 64 bits that are far apart are rounded to different ones. -/
theorem rounded_ne_of_far {k l : Int} (hk : k.natAbs < 2 ^ 64) (hl : l.natAbs < 2 ^ 64)
    (hfar : 2 ^ 11 < (k - l).natAbs) : rounded k ≠ rounded l := by
  have hmoved := natAbs_rounded_sub_le hk
  have hmoved' := natAbs_rounded_sub_le hl
  omega

end DiagramTour.Number
