import DiagramTour.Proofs.Number.Rounding
import Mathlib

/-!
# Whole numbers as doubles

Between `-2 ^ 63` and `2 ^ 63` a whole number becomes the double that stands for the rounded number, and
two such doubles compare as the rounded numbers do.

## Architecture

- `Number.CutOff`: what the two bits behind a mantissa tell about the places that were shifted out.
- `Number.Scales` and `Number.Spells`: a mantissa of 53 places, with a sign and an exponent, stands for a
  whole number.
- `Number.roundWithAccuracy_spells` is the step that rounds; multiplying by one and packing change
  nothing.
- `Number.ofInt_spells` is what a whole number becomes, and `Number.ofInt_lt_iff` and
  `Number.ofInt_le_iff` compare two of them.
-/

namespace DiagramTour.Number

open Float.Model Float.Model.UnpackedFloat

variable {m n : Nat} {e : Int} {sign : Sign}

/-! ## Shifting -/

/-- The bits behind a mantissa tell whether the rest `r` of a place as wide as `w` is nothing, less
than half of it, half of it, or more. -/
def CutOff (em : ExtendedMantissa) (r w : Nat) : Prop :=
  match em.roundBit, em.stickyBit with
  | false, false => r = 0
  | false, true => 0 < r ∧ 2 * r < w
  | true, false => 2 * r = w
  | true, true => w < 2 * r

/-- Shifting one place further doubles the width, and the last place of the mantissa joins the rest. -/
theorem CutOff.shiftRightOne {em : ExtendedMantissa} {r w : Nat} (h : CutOff em r w) (hlt : r < w) :
    CutOff em.shiftRightOne (em.mantissa % 2 * w + r) (2 * w) := by
  obtain ⟨m, round, sticky⟩ := em
  -- The last place of the mantissa becomes the round bit, and what was behind it the sticky bit
  rcases Nat.mod_two_eq_zero_or_one m with hm | hm <;> cases round <;> cases sticky <;>
    simp_all [CutOff, ExtendedMantissa.shiftRightOne] <;> omega

/-- Shifting places out of a mantissa divides it, and the bits behind it tell about the remainder. -/
theorem shiftRight_spec (n s : Nat) :
    (ExtendedMantissa.ofMantissaAndAccuracy n .exact >>> s).mantissa = n / 2 ^ s ∧
      CutOff (ExtendedMantissa.ofMantissaAndAccuracy n .exact >>> s) (n % 2 ^ s) (2 ^ s) := by
  induction s with
  | zero => exact ⟨(Nat.div_one n).symm, Nat.mod_one n⟩
  | succ s ih =>
    obtain ⟨hmantissa, hcut⟩ := ih
    -- What is left by the greater power is the next place and what was left so far
    have hmod : n % 2 ^ (s + 1) = n / 2 ^ s % 2 * 2 ^ s + n % 2 ^ s := by
      rw [pow_succ, Nat.mod_mul, Nat.mul_comm, Nat.add_comm]
    constructor
    · change (ExtendedMantissa.ofMantissaAndAccuracy n .exact >>> s).mantissa / 2 = _
      rw [hmantissa, Nat.div_div_eq_div_mul, pow_succ]
    · have hstep := hcut.shiftRightOne (Nat.mod_lt n (Nat.two_pow_pos s))
      rw [hmantissa, ← hmod, Nat.mul_comm, ← pow_succ] at hstep
      exact hstep

/-- Rounding what was shifted is rounding the places away. -/
theorem roundedMantissa_shiftRight (n s : Nat) :
    (ExtendedMantissa.ofMantissaAndAccuracy n .exact >>> s).roundedMantissa = halfEven n s := by
  obtain ⟨hmantissa, hcut⟩ := shiftRight_spec n s
  generalize ExtendedMantissa.ofMantissaAndAccuracy n .exact >>> s = em at *
  obtain ⟨m, round, sticky⟩ := em
  subst hmantissa
  unfold halfEven
  -- Each of the four pairs of bits decides both conditions of `halfEven`
  cases round <;> cases sticky <;>
    simp only [CutOff, ExtendedMantissa.roundedMantissa, ExtendedMantissa.accuracy,
      Accuracy.roundToNearestEven] at hcut ⊢
  all_goals split <;> omega

/-! ## Rounding -/

/-- A mantissa of 53 places, the first of which counts `2 ^ k`, stands for a number. -/
structure Scales (m k n : Nat) : Prop where
  low : 2 ^ 52 ≤ m
  high : m < 2 ^ 53
  value : m * 2 ^ k = n * 2 ^ 52

/-- A double stands for a whole number. -/
inductive Spells : UnpackedFloat → Int → Prop where
  | zero (sign : Sign) : Spells (.zero sign) 0
  | finite {sign : Sign} {m k n : Nat} {hpos : 0 < m} :
      Scales m k n → Spells (.finite sign m (k - 52) hpos) (sign.apply n)

theorem log2_mul_pow (hne : n ≠ 0) (j : Nat) : (n * 2 ^ j).log2 = n.log2 + j := by
  rw [Nat.log2_eq_iff (Nat.mul_ne_zero hne (Nat.two_pow_pos j).ne'), pow_add, add_right_comm, pow_add]
  exact ⟨Nat.mul_le_mul_right _ (Nat.log2_self_le hne),
    (Nat.mul_lt_mul_right (Nat.two_pow_pos j)).mpr Nat.lt_log2_self⟩

/-- However many zeros are put behind a number, the same is left of it when it is rounded to 53
places. -/
theorem halfEven_log2 (hne : n ≠ 0) {j : Nat} (hj : 52 ≤ n.log2 + j) :
    halfEven (n * 2 ^ j) (n.log2 + j - 52) * 2 ^ n.log2 = nearest n * 2 ^ 52 := by
  rcases Nat.lt_or_ge n.log2 52 with hlt | hge
  · -- Zeros that are rounded away again fill the number up to 53 places
    have hsmall : n < 2 ^ 53 := (Nat.log2_lt hne).mp (by omega)
    obtain ⟨t, rfl⟩ : ∃ t, j = 52 - n.log2 + t := ⟨n.log2 + j - 52, by omega⟩
    have hround := halfEven_mul_pow (n * 2 ^ (52 - n.log2)) 0 t
    rw [mul_assoc, ← pow_add, halfEven_zero, Nat.zero_add] at hround
    rw [show n.log2 + (52 - n.log2 + t) - 52 = t by omega, hround, nearest_of_lt hsmall, mul_assoc,
      ← pow_add, Nat.sub_add_cancel hlt.le]
  · -- The zeros are rounded away, and so is what the number has too much
    have hlog : excess n + 52 = n.log2 := excess_add ((Nat.le_log2 hne).mp hge)
    have hexcess : n.log2 + j - 52 = excess n + j := by omega
    rw [hexcess, halfEven_mul_pow, ← hlog, pow_add, ← mul_assoc, nearest]

theorem targetExponent_binary64 (m : Nat) (e : Int) :
    Format.binary64.targetExponent (totalExponent m e) = max (m.log2 + e - 52) (-1074) := by
  have hbits : Format.binary64.mantissaBits = 53 := rfl
  have hleast : Format.binary64.minExponent = -1074 := rfl
  rw [Format.targetExponent, totalExponent, hbits, hleast]
  omega

/-- Shifting takes all places but 53. -/
theorem shiftToTargetExponent_of_le (hne : n ≠ 0) {j : Nat} (hj : 52 ≤ n.log2 + j) :
    shiftToTargetExponent .binary64 (n * 2 ^ j) (-j) .exact =
      (ExtendedMantissa.ofMantissaAndAccuracy (n * 2 ^ j) .exact >>> (n.log2 + j - 52),
        (n.log2 : Int) - 52) := by
  have htarget : Format.binary64.targetExponent (totalExponent (n * 2 ^ j) (-j)) =
      (n.log2 : Int) - 52 := by
    rw [targetExponent_binary64, log2_mul_pow hne]
    omega
  have hshift : ((n.log2 : Int) - 52 - -j).toNat = n.log2 + j - 52 := by omega
  have hexponent : -(j : Int) + (n.log2 + j - 52 : Nat) = (n.log2 : Int) - 52 := by omega
  rw [shiftToTargetExponent, htarget, shiftToExponent, hshift, hexponent]

/-- With 53 places there is nothing to shift. -/
theorem shiftToTargetExponent_of_fits (hlow : 2 ^ 52 ≤ m) (hhigh : m < 2 ^ 53) (he : -52 ≤ e) :
    shiftToTargetExponent .binary64 m e .exact = (⟨m, false, false⟩, e) := by
  have hlog : m.log2 = 52 := (Nat.log2_eq_iff (by omega)).mpr ⟨hlow, hhigh⟩
  have htarget : Format.binary64.targetExponent (totalExponent m e) = e := by
    rw [targetExponent_binary64, hlog]
    omega
  rw [shiftToTargetExponent, htarget, shiftToExponent, Int.sub_self]
  exact Prod.ext rfl (Int.add_zero e)

/-- Where rounding has made a place more, one is shifted out again. -/
theorem shiftToTargetExponent_of_carry (he : -52 ≤ e) :
    shiftToTargetExponent .binary64 (2 ^ 53) e .exact = (⟨2 ^ 52, false, false⟩, e + 1) := by
  have htarget : Format.binary64.targetExponent (totalExponent (2 ^ 53) e) = e + 1 := by
    rw [targetExponent_binary64, Nat.log2_two_pow]
    omega
  rw [shiftToTargetExponent, htarget, shiftToExponent, show (e + 1 - e).toNat = 1 by omega]
  rfl

/-- Rounding keeps 53 places of a number that has at least as many. -/
theorem roundWithAccuracy_spells (sign : Sign) (hne : n ≠ 0) {j : Nat} (hj : 52 ≤ n.log2 + j) :
    Spells (roundWithAccuracy .binary64 sign (n * 2 ^ j) (-j) .exact) (sign.apply (nearest n)) := by
  have hvalue := halfEven_log2 hne hj
  obtain ⟨hlow, hhigh⟩ := nearest_bounds hne
  rw [roundWithAccuracy, shiftToTargetExponent_of_le hne hj]
  dsimp only
  rw [roundedMantissa_shiftRight]
  generalize halfEven (n * 2 ^ j) (n.log2 + j - 52) = r at *
  -- Between the powers of two around the number there are 53 places, unless rounding reached the upper
  have hlog : 0 < 2 ^ n.log2 := Nat.two_pow_pos _
  have hrlow : 2 ^ 52 ≤ r := by
    apply Nat.le_of_mul_le_mul_right _ hlog
    rw [hvalue, mul_comm]
    exact Nat.mul_le_mul_right _ hlow
  have hrhigh : r ≤ 2 ^ 53 := by
    apply Nat.le_of_mul_le_mul_right _ hlog
    rw [hvalue, mul_comm (2 ^ 53), pow_succ 2 52, ← mul_assoc, mul_right_comm, ← pow_succ]
    exact Nat.mul_le_mul_right _ hhigh
  rcases hrhigh.lt_or_eq with hlt | rfl
  · rw [shiftToTargetExponent_of_fits hrlow hlt (by omega)]
    dsimp only
    rw [dif_neg (by omega)]
    exact .finite ⟨hrlow, hlt, hvalue⟩
  · rw [shiftToTargetExponent_of_carry (by omega)]
    dsimp only
    have hexponent : (n.log2 : Int) - 52 + 1 = (n.log2 + 1 : Nat) - 52 := by omega
    rw [dif_neg (by decide), hexponent]
    have hcarried : 2 ^ 52 * 2 ^ (n.log2 + 1) = nearest n * 2 ^ 52 := by
      rw [← hvalue, ← pow_add, ← pow_add, show 52 + (n.log2 + 1) = 53 + n.log2 by omega]
    exact .finite ⟨by decide, by decide, hcarried⟩

/-! ## Packing -/

/-- An exponent that is neither the least nor the greatest has a mantissa whose first place is not
written. -/
theorem unpack_packComponents {exponent : BitVec 11} {mantissa : BitVec 52}
    (hfinite : exponent.toNat ≠ 2047) (hnormal : exponent.toNat ≠ 0)
    (hpos : 0 < (1#1 ++ mantissa).toNat) :
    UnpackedFloat.unpack .binary64 (packComponents .binary64 sign exponent mantissa) =
      .finite sign (1#1 ++ mantissa).toNat (exponent.toNat - 1075) hpos := by
  have hbias : (Format.binary64.exponentBias + (52 : Nat) : Int) = 1075 := rfl
  have hgreatest : exponent ≠ -1#11 := fun heq => hfinite (congrArg BitVec.toNat heq)
  have hleast : exponent ≠ 0#11 := fun heq => hnormal (congrArg BitVec.toNat heq)
  unfold UnpackedFloat.unpack
  simp only [unpackMantissa_packComponents, unpackExponent_packComponents, unpackSign_packComponents]
  rw [if_neg hgreatest, if_neg hleast, Sign.ofBitVec_toBitVec]
  simp only [hbias]

/-- A mantissa of 53 places is packed without the first one. -/
theorem toNat_append_ofNat (hlow : 2 ^ 52 ≤ m) (hhigh : m < 2 ^ 53) :
    (1#1 ++ BitVec.ofNat 52 m).toNat = m := by
  have hmod : m % 2 ^ 52 < 2 ^ 52 := Nat.mod_lt _ (by decide)
  rw [BitVec.toNat_append, BitVec.toNat_ofNat, BitVec.toNat_ofNat,
    ← Nat.shiftLeft_add_eq_or_of_lt hmod, Nat.shiftLeft_eq]
  omega

/-- Packing a double that is not too great changes nothing. -/
theorem unpack_pack {k : Nat} {hpos : 0 < m} (hlow : 2 ^ 52 ≤ m) (hhigh : m < 2 ^ 53) (hk : k < 1000) :
    (pack (.finite sign m (k - 52) hpos)).unpack = .finite sign m (k - 52) hpos := by
  have hlog : m.log2 = 52 := (Nat.log2_eq_iff (by omega)).mpr ⟨hlow, hhigh⟩
  have hplaces : 52 + 1 = Format.binary64.mantissaBits := rfl
  have hbias : (((k : Int) - 52) + Format.binary64.exponentBias + (52 : Nat)).toNat = k + 1023 := by
    have : Format.binary64.exponentBias = 1023 := rfl
    omega
  have hpack : UnpackedFloat.pack .binary64 (.finite sign m (k - 52) hpos) =
      packComponents .binary64 sign (BitVec.ofNat 11 (k + 1023)) (BitVec.ofNat 52 m) := by
    rw [UnpackedFloat.pack]
    dsimp only
    rw [hbias, hlog, if_neg (by omega), if_pos hplaces]
  have hexponent : (BitVec.ofNat 11 (k + 1023)).toNat = k + 1023 := by
    rw [BitVec.toNat_ofNat, Nat.mod_eq_of_lt (by omega)]
  have hmantissa : (1#1 ++ BitVec.ofNat 52 m).toNat = m := toNat_append_ofNat hlow hhigh
  show UnpackedFloat.unpack .binary64 (UnpackedFloat.pack .binary64 _) = _
  rw [hpack, unpack_packComponents (by omega) (by omega) (by omega)]
  have hvalue : ((k + 1023 : Nat) : Int) - 1075 = k - 52 := by omega
  simp only [hmantissa, hexponent, hvalue]

/-! ## Comparing -/

namespace Scales

variable {k l m' n' : Nat}

/-- Of two mantissas the one with the greater exponent stands for the greater number. -/
theorem lt_of_exponent_lt (h : Scales m k n) (h' : Scales m' l n') (hlt : k < l) : n < n' := by
  have hscaled : n * 2 ^ 52 < n' * 2 ^ 52 :=
    calc n * 2 ^ 52 = m * 2 ^ k := h.value.symm
      _ < 2 ^ 53 * 2 ^ k := (Nat.mul_lt_mul_right (Nat.two_pow_pos k)).mpr h.high
      _ = 2 ^ 52 * 2 ^ (k + 1) := by rw [pow_succ 2 52, pow_succ 2 k, mul_assoc, mul_comm 2]
      _ ≤ m' * 2 ^ l := Nat.mul_le_mul h'.low (Nat.pow_le_pow_right (by decide) hlt)
      _ = n' * 2 ^ 52 := h'.value
  exact Nat.lt_of_mul_lt_mul_right hscaled

/-- Of two mantissas with one exponent the greater one stands for the greater number. -/
theorem lt_of_mantissa_lt (h : Scales m k n) (h' : Scales m' k n') (hlt : m < m') : n < n' := by
  have hscaled : n * 2 ^ 52 < n' * 2 ^ 52 := by
    rw [← h.value, ← h'.value]
    exact (Nat.mul_lt_mul_right (Nat.two_pow_pos k)).mpr hlt
  exact Nat.lt_of_mul_lt_mul_right hscaled

/-- A mantissa does not stand for zero. -/
theorem pos (h : Scales m k n) : 0 < n := by
  have hlow := h.low
  have hvalue : 0 < m * 2 ^ k := Nat.mul_pos (by omega) (Nat.two_pow_pos k)
  rw [h.value] at hvalue
  exact Nat.pos_of_mul_pos_right hvalue

/-- A number below `2 ^ (k + 1)` has no greater exponent than `2 ^ k`. -/
theorem exponent_le (h : Scales m k n) (hn : n < 2 ^ (l + 1)) : k ≤ l := by
  by_contra hlt
  have hpow : 2 ^ (l + 1) ≤ 2 ^ k := Nat.pow_le_pow_right (by decide) (not_le.mp hlt)
  have hscaled : 2 ^ 52 * 2 ^ (l + 1) ≤ n * 2 ^ 52 := h.value ▸ Nat.mul_le_mul h.low hpow
  omega

/-- Comparing exponents first and then mantissas is comparing the numbers. -/
theorem compare_eq (h : Scales m k n) (h' : Scales m' l n') :
    (compare ((k : Int) - 52) (l - 52)).then (compare m m') = compare (n : Int) n' := by
  rcases Nat.lt_trichotomy k l with hlt | rfl | hgt
  · have hexponent : (k : Int) - 52 < l - 52 := by omega
    have hn : (n : Int) < n' := Int.ofNat_lt.mpr (h.lt_of_exponent_lt h' hlt)
    rw [compare_lt_iff_lt.mpr hexponent, compare_lt_iff_lt.mpr hn]
    rfl
  · -- The exponents are the same, and the mantissas decide
    rw [compare_eq_iff_eq.mpr rfl, Ordering.eq_then]
    rcases Nat.lt_trichotomy m m' with hlt | rfl | hgt
    · have hn : (n : Int) < n' := Int.ofNat_lt.mpr (h.lt_of_mantissa_lt h' hlt)
      rw [compare_lt_iff_lt.mpr hlt, compare_lt_iff_lt.mpr hn]
    · obtain rfl : n = n' := Nat.eq_of_mul_eq_mul_right (by decide) (h.value.symm.trans h'.value)
      rw [compare_eq_iff_eq.mpr rfl, compare_eq_iff_eq.mpr rfl]
    · have hn : (n : Int) > n' := Int.ofNat_lt.mpr (h'.lt_of_mantissa_lt h hgt)
      rw [compare_gt_iff_gt.mpr hgt, compare_gt_iff_gt.mpr hn]
  · have hexponent : (k : Int) - 52 > l - 52 := by omega
    have hn : (n : Int) > n' := Int.ofNat_lt.mpr (h'.lt_of_exponent_lt h hgt)
    rw [compare_gt_iff_gt.mpr hexponent, compare_gt_iff_gt.mpr hn]
    rfl

end Scales

theorem compare_neg (a b : Int) : compare (-a) (-b) = (compare a b).swap := by
  rcases lt_trichotomy a b with hlt | rfl | hgt
  · rw [compare_lt_iff_lt.mpr hlt, compare_gt_iff_gt.mpr (Int.neg_lt_neg hlt)]
    rfl
  · rw [compare_eq_iff_eq.mpr rfl, compare_eq_iff_eq.mpr rfl]
    rfl
  · rw [compare_gt_iff_gt.mpr hgt, compare_lt_iff_lt.mpr (Int.neg_lt_neg hgt)]
    rfl

/-- Doubles compare as the numbers that they stand for. -/
theorem Spells.compare_eq {u v : UnpackedFloat} {a b : Int} (hu : Spells u a) (hv : Spells v b) :
    u.compare v = some (compare a b) := by
  cases hu with
  | zero sign =>
    cases hv with
    | zero sign' => rfl
    | @finite sign' m' l n' _ h' =>
      have hn' := h'.pos
      cases sign' with
      | positive =>
        exact (congrArg some (compare_lt_iff_lt.mpr (show (0 : Int) < n' by omega))).symm
      | negative =>
        exact (congrArg some (compare_gt_iff_gt.mpr (show (0 : Int) > -n' by omega))).symm
  | @finite sign m k n _ h =>
    have hn := h.pos
    cases hv with
    | zero sign' =>
      cases sign with
      | positive =>
        exact (congrArg some (compare_gt_iff_gt.mpr (show (n : Int) > 0 by omega))).symm
      | negative =>
        exact (congrArg some (compare_lt_iff_lt.mpr (show -(n : Int) < 0 by omega))).symm
    | @finite sign' m' l n' _ h' =>
      have hn' := h'.pos
      have hmagnitudes := h.compare_eq h'
      cases sign with
      | positive =>
        cases sign' with
        | positive => exact congrArg some hmagnitudes
        | negative =>
          exact (congrArg some (compare_gt_iff_gt.mpr (show (n : Int) > -n' by omega))).symm
      | negative =>
        cases sign' with
        | positive =>
          exact (congrArg some (compare_lt_iff_lt.mpr (show -(n : Int) < n' by omega))).symm
        | negative =>
          have hswap := (congrArg Ordering.swap hmagnitudes).trans (compare_neg n n').symm
          exact congrArg some hswap

/-! ## Converting -/

/-- Packing keeps what a double stands for. -/
theorem Spells.packed {u : UnpackedFloat} {a : Int} (h : Spells u a) (ha : a.natAbs < 2 ^ 65) :
    (pack u).unpack = u := by
  cases h with
  | zero sign => exact unpack_packedZero
  | @finite sign m k n _ h =>
    have hn : n < 2 ^ 65 := by
      cases sign <;> simpa [Sign.apply] using ha
    have hk : k ≤ 64 := h.exponent_le hn
    exact unpack_pack h.low h.high (by omega)

/-- A number that fits a mantissa is converted as it is. -/
theorem ofNat_spells_of_lt (hne : n ≠ 0) (hlt : n < 2 ^ 53) :
    Spells (UnpackedFloat.ofNat .binary64 n) (Sign.positive.apply n) := by
  have hlog : n.log2 ≤ 52 := Nat.le_of_lt_succ (log2_lt_of_lt hlt)
  have htarget : Format.binary64.targetExponent (totalExponent n 0) = -((52 - n.log2 : Nat) : Int) := by
    rw [targetExponent_binary64]
    omega
  have hround := roundWithAccuracy_spells .positive hne (show 52 ≤ n.log2 + (52 - n.log2) by omega)
  rw [nearest_of_lt hlt] at hround
  have hnat : UnpackedFloat.ofNat .binary64 n =
      roundWithAccuracy .binary64 .positive (n * 2 ^ (52 - n.log2)) (-((52 - n.log2 : Nat) : Int))
        .exact := by
    rw [UnpackedFloat.ofNat, UnpackedFloat.ofInt, UnpackedFloat.normalize,
      compare_gt_iff_gt.mpr (show (n : Int) > 0 by omega)]
    dsimp only
    rw [Int.toNat_natCast, UnpackedFloat.round, decreaseExponent]
    dsimp only
    rw [htarget, Nat.shiftLeft_eq, show (0 - -((52 - n.log2 : Nat) : Int)).toNat = 52 - n.log2 by omega,
      Int.zero_sub]
  rw [hnat]
  exact hround

/-- The power of ten that a whole number is multiplied by. -/
theorem unpack_one : (Float.exactlyRepresentablePowersOfTen[0]).toModel.unpack =
    .finite .positive (2 ^ 52) (-52) (by decide) :=
  rfl

/-- Multiplying by one changes nothing. -/
theorem mul_one_spells {u : UnpackedFloat} (hne : n ≠ 0) (hlt : n < 2 ^ 53)
    (h : Spells u (Sign.positive.apply n)) :
    Spells (UnpackedFloat.mul .binary64 u (.finite .positive (2 ^ 52) (-52) (by decide)))
      (Sign.positive.apply n) := by
  generalize ha : Sign.positive.apply (n : Int) = a at h
  cases h with
  | zero sign => exact absurd (Int.ofNat_eq_zero.mp ha) hne
  | @finite sign m k n' _ h =>
    have hn' := h.pos
    cases sign with
    | negative =>
      change (n : Int) = -n' at ha
      omega
    | positive =>
      obtain rfl : n = n' := Int.ofNat_inj.mp ha
      have hk : k ≤ 52 := h.exponent_le hlt
      -- Both mantissas are scaled by one power of two, which rounding takes away again
      have hmantissa : m * 2 ^ 52 = n * 2 ^ (104 - k) :=
        calc m * 2 ^ 52 = m * 2 ^ k * 2 ^ (52 - k) := by rw [mul_assoc, ← pow_add, Nat.add_sub_cancel' hk]
          _ = n * 2 ^ (104 - k) := by
            rw [h.value, mul_assoc, ← pow_add, show 52 + (52 - k) = 104 - k by omega]
      have hexponent : ((k : Int) - 52) + -52 = -((104 - k : Nat) : Int) := by omega
      have hround := roundWithAccuracy_spells .positive hne (show 52 ≤ n.log2 + (104 - k) by omega)
      rw [nearest_of_lt hlt, ← hmantissa, ← hexponent] at hround
      exact hround

/-- A number that fits a mantissa is converted and multiplied by one. -/
theorem toModel_ofNat_of_lt (hlt : n < 2 ^ 53) : (Float.ofNat n).toModel =
    pack (UnpackedFloat.mul .binary64 (pack (UnpackedFloat.ofNat .binary64 n)).unpack
      (.finite .positive (2 ^ 52) (-52) (by decide))) := by
  have hword : n.toUInt64.toNat = n := by
    show (UInt64.ofNat n).toNat = n
    rw [UInt64.toNat_ofNat']
    omega
  have hfloat : Float.ofNat n = n.toUInt64.toFloat * Float.exactlyRepresentablePowersOfTen[0] := by
    show Float.ofScientific n false 0 = _
    rw [Float.ofScientific, dif_pos (by omega)]
    rfl
  rw [hfloat, ← unpack_one]
  conv_rhs => rw [← hword]
  rfl

/-- A greater one is rounded as a decimal number. -/
theorem toModel_ofNat_of_ge (hge : 2 ^ 53 ≤ n) : (Float.ofNat n).toModel =
    pack (roundWithAccuracy .binary64 .positive (n * 2 ^ 53) (-(53 : Nat)) .exact) := by
  have hmodel : (Float.ofNat n).toModel = Float.Model.ofScientific n 0 := by
    show (Float.ofScientific n false 0).toModel = _
    rw [Float.ofScientific, dif_neg (by omega)]
    rfl
  have hpower : (2 : Int) ^ Format.binary64.exponentBits = 2048 := rfl
  have hplaces : Format.binary64.mantissaBits = 53 := rfl
  rw [hmodel, Float.Model.ofScientific, UnpackedFloat.ofScientific, hpower, dif_neg (by omega),
    if_neg (by omega), if_neg (by omega), if_pos (by omega), UnpackedFloat.mul, Nat.shiftLeft_eq,
    Int.toNat_zero, Nat.pow_zero, Nat.mul_one, Int.add_zero, hplaces]
  rfl

theorem nearest_lt (hn : n < 2 ^ 64) : nearest n < 2 ^ 65 := by
  rcases Nat.eq_zero_or_pos n with rfl | hpos
  · decide
  · have hlog : n.log2 < 64 := log2_lt_of_lt hn
    have hle := (nearest_bounds hpos.ne').2
    have hpow : 2 ^ (n.log2 + 1) ≤ 2 ^ 64 := Nat.pow_le_pow_right (by decide) hlog
    omega

/-- A natural number becomes the double that stands for the rounded number. -/
theorem ofNat_spells (hn : n < 2 ^ 64) :
    Spells (Float.ofNat n).toModel.unpack (Sign.positive.apply (nearest n)) := by
  rcases Nat.eq_zero_or_pos n with rfl | hpos
  · exact .zero .positive
  -- A number that fits is exact at each of the two steps, and any other is rounded once
  rcases Nat.lt_or_ge n (2 ^ 53) with hlt | hge
  · have hnat := ofNat_spells_of_lt hpos.ne' hlt
    have hmul := mul_one_spells hpos.ne' hlt hnat
    have hsmall : (Sign.positive.apply (n : Int)).natAbs < 2 ^ 65 := by
      show n < 2 ^ 65
      omega
    rw [toModel_ofNat_of_lt hlt, hnat.packed hsmall, hmul.packed hsmall, nearest_of_lt hlt]
    exact hmul
  · have hround := roundWithAccuracy_spells .positive hpos.ne' (show 52 ≤ n.log2 + 53 by omega)
    rw [toModel_ofNat_of_ge hge, hround.packed (nearest_lt hn)]
    exact hround

theorem Spells.neg {u : UnpackedFloat} {a : Int} (h : Spells u a) : Spells u.neg (-a) := by
  cases h with
  | zero sign => exact .zero _
  | @finite sign m k n _ h =>
    cases sign with
    | positive => exact .finite h
    | negative =>
      rw [show -Sign.negative.apply n = n from Int.neg_neg n]
      exact .finite h

/-- A whole number becomes the double that stands for the rounded number. -/
theorem ofInt_spells {a : Int} (ha : a.natAbs < 2 ^ 64) :
    Spells (Float.ofInt a).toModel.unpack (rounded a) := by
  cases a with
  | ofNat n =>
    have hrounded : rounded (Int.ofNat n) = Sign.positive.apply (nearest n) := rounded_natCast n
    rw [hrounded]
    exact ofNat_spells ha
  | negSucc n =>
    have hrounded : rounded (Int.negSucc n) = -Sign.positive.apply (nearest (n + 1)) := by
      rw [Int.negSucc_eq, rounded_neg]
      exact congrArg Neg.neg (rounded_natCast (n + 1))
    have hneg := (ofNat_spells (show n + 1 < 2 ^ 64 from ha)).neg
    have hmodel : (Float.ofInt (Int.negSucc n)).toModel =
        pack (Float.ofNat (n + 1)).toModel.unpack.neg := rfl
    have hsmall : (-Sign.positive.apply (nearest (n + 1) : Int)).natAbs < 2 ^ 65 := by
      rw [Int.natAbs_neg]
      exact nearest_lt ha
    rw [hmodel, hneg.packed hsmall, hrounded]
    exact hneg

/-- Two whole numbers that became doubles compare as the rounded numbers. -/
theorem compare_ofInt {a b : Int} (ha : a.natAbs < 2 ^ 64) (hb : b.natAbs < 2 ^ 64) :
    (Float.ofInt a).toModel.unpack.compare (Float.ofInt b).toModel.unpack =
      some (compare (rounded a) (rounded b)) :=
  (ofInt_spells ha).compare_eq (ofInt_spells hb)

theorem ofInt_lt_iff {a b : Int} (ha : a.natAbs < 2 ^ 64) (hb : b.natAbs < 2 ^ 64) :
    Float.ofInt a < Float.ofInt b ↔ rounded a < rounded b := by
  show (decide ((_ == some Ordering.lt) = true) = true) ↔ _
  rw [decide_eq_true_iff, compare_ofInt ha hb, ← compare_lt_iff_lt]
  simp

theorem ofInt_le_iff {a b : Int} (ha : a.natAbs < 2 ^ 64) (hb : b.natAbs < 2 ^ 64) :
    Float.ofInt a ≤ Float.ofInt b ↔ rounded a ≤ rounded b := by
  show (decide ((Option.any _ _) = true) = true) ↔ _
  rw [decide_eq_true_iff, compare_ofInt ha hb, ← compare_le_iff_le]
  exact Ordering.isLE_iff_ne_gt

end DiagramTour.Number
