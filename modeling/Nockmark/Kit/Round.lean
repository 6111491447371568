import Mathlib

/-!
# Kit.Round

Rounding of exact rationals.

* `roundAway x`: the nearest integer, ties away from zero. `roundAway_mono`; `roundAway_natDiv`
  says which way a quotient of naturals goes.
* `signif n x`: `n + 1` significant decimal digits. `signif_mono`: rounding never reverses the
  order of nonnegative numbers.
* `binary64 x`: 53 significant bits, ties to even, over an unbounded exponent range (so it is the
  rounding of IEEE double arithmetic wherever that neither overflows nor underflows). Powers of two
  are exact (`binary64_zpow`), and one more is lost in them from `2^53` on (`binary64_pow_add_one`).
-/

namespace Kit
namespace Round

def roundAway (x : ℚ) : ℤ := if 0 ≤ x then ⌊x + 1 / 2⌋ else -⌊-x + 1 / 2⌋

theorem roundAway_of_nonneg {x : ℚ} (h : 0 ≤ x) : roundAway x = ⌊x + 1 / 2⌋ := if_pos h

theorem roundAway_nonneg {x : ℚ} (h : 0 ≤ x) : 0 ≤ roundAway x := by
  rw [roundAway_of_nonneg h, Int.floor_nonneg]
  linarith

theorem roundAway_mono : Monotone roundAway := by
  intro x y hxy
  unfold roundAway
  by_cases hx : 0 ≤ x
  · rw [if_pos hx, if_pos (le_trans hx hxy)]
    exact Int.floor_mono (by linarith)
  · rw [if_neg hx]
    by_cases hy : 0 ≤ y
    · rw [if_pos hy]
      have h1 : 0 ≤ ⌊-x + 1 / 2⌋ := Int.floor_nonneg.mpr (by linarith)
      have h2 : 0 ≤ ⌊y + 1 / 2⌋ := Int.floor_nonneg.mpr (by linarith)
      omega
    · rw [if_neg hy]
      have := Int.floor_mono (show -y + 1 / 2 ≤ -x + 1 / 2 by linarith)
      omega

theorem roundAway_intCast (n : ℤ) : roundAway (n : ℚ) = n := by
  unfold roundAway
  split
  · rw [Int.floor_intCast_add]
    norm_num
  · rw [← Int.cast_neg, Int.floor_intCast_add]
    norm_num

/-- A quotient of naturals goes down if its remainder is below half the divisor, else up. -/
theorem roundAway_natDiv (a : ℕ) {b : ℕ} (hb : 0 < b) :
    roundAway ((a : ℚ) / b) = if 2 * (a % b) < b then ((a / b : ℕ) : ℤ) else (a / b : ℕ) + 1 := by
  have hb' : (b : ℚ) ≠ 0 := by positivity
  have hsum : (a : ℚ) / b + 1 / 2 = ((2 * a + b : ℕ) : ℤ) / ((2 * b : ℕ) : ℚ) := by
    push_cast
    field_simp
  rw [roundAway_of_nonneg (by positivity), hsum, Rat.floor_intCast_div_natCast]
  have hdiv : (2 * a + b) / (2 * b) = if 2 * (a % b) < b then a / b else a / b + 1 := by
    have hab := Nat.div_add_mod a b
    have hr := Nat.mod_lt a hb
    split
    · rename_i hlt
      apply Nat.div_eq_of_lt_le
      · calc a / b * (2 * b) = 2 * (b * (a / b)) := by ring
          _ ≤ 2 * a + b := by omega
      · calc 2 * a + b < 2 * (b * (a / b)) + 2 * b := by omega
          _ = (a / b + 1) * (2 * b) := by ring
    · rename_i hge
      apply Nat.div_eq_of_lt_le
      · calc (a / b + 1) * (2 * b) = 2 * (b * (a / b)) + 2 * b := by ring
          _ ≤ 2 * a + b := by omega
      · calc 2 * a + b < 2 * (b * (a / b)) + 4 * b := by omega
          _ = (a / b + 1 + 1) * (2 * b) := by ring
  have hcast : ((2 * a + b : ℕ) : ℤ) / ((2 * b : ℕ) : ℤ) = (((2 * a + b) / (2 * b) : ℕ) : ℤ) :=
    (Int.natCast_div _ _).symm
  rw [hcast, hdiv]
  split <;> simp

/-! ### Significant digits -/

/-- The power of ten that brings the leading digit of `x` to the `n`-th place. -/
def scale (n : ℕ) (x : ℚ) : ℚ := (10 : ℚ) ^ ((n : ℤ) - Int.log 10 |x|)

def signif (n : ℕ) (x : ℚ) : ℚ := if x = 0 then x else roundAway (x * scale n x) / scale n x

theorem scale_pos (n : ℕ) (x : ℚ) : 0 < scale n x := zpow_pos (by norm_num) _

theorem signif_nonneg (n : ℕ) {x : ℚ} (h : 0 ≤ x) : 0 ≤ signif n x := by
  unfold signif
  split
  · exact h
  · have hs := scale_pos n x
    have hr := roundAway_nonneg (mul_nonneg h (le_of_lt hs))
    exact div_nonneg (by exact_mod_cast hr) (le_of_lt hs)

/-- The rounded value stays below the next power of ten. -/
theorem signif_le_pow (n : ℕ) {x : ℚ} (h : 0 < x) : signif n x ≤ (10 : ℚ) ^ (Int.log 10 x + 1) := by
  have hs := scale_pos n x
  have hx : x ≤ (10 : ℚ) ^ (Int.log 10 x + 1) :=
    le_of_lt (Int.lt_zpow_succ_log_self (by norm_num) x)
  have hpow : (10 : ℚ) ^ (Int.log 10 x + 1) * scale n x = ((10 ^ (n + 1) : ℕ) : ℤ) := by
    rw [scale, abs_of_pos h, ← zpow_add₀ (by norm_num : (10 : ℚ) ≠ 0),
      show Int.log 10 x + 1 + ((n : ℤ) - Int.log 10 x) = ((n + 1 : ℕ) : ℤ) by push_cast; ring,
      zpow_natCast]
    push_cast
    rfl
  rw [signif, if_neg (ne_of_gt h), div_le_iff₀ hs, hpow]
  have hm := roundAway_mono (mul_le_mul_of_nonneg_right hx (le_of_lt hs))
  rw [hpow, roundAway_intCast] at hm
  exact_mod_cast hm

/-- The rounded value stays above its own power of ten. -/
theorem pow_le_signif (n : ℕ) {x : ℚ} (h : 0 < x) : (10 : ℚ) ^ Int.log 10 x ≤ signif n x := by
  have hs := scale_pos n x
  have hx : (10 : ℚ) ^ Int.log 10 x ≤ x := Int.zpow_log_le_self (by norm_num) h
  have hpow : (10 : ℚ) ^ Int.log 10 x * scale n x = ((10 ^ n : ℕ) : ℤ) := by
    rw [scale, abs_of_pos h, ← zpow_add₀ (by norm_num : (10 : ℚ) ≠ 0),
      show Int.log 10 x + ((n : ℤ) - Int.log 10 x) = (n : ℤ) by ring, zpow_natCast]
    push_cast
    rfl
  rw [signif, if_neg (ne_of_gt h), le_div_iff₀ hs, hpow]
  have hm := roundAway_mono (mul_le_mul_of_nonneg_right hx (le_of_lt hs))
  rw [hpow, roundAway_intCast] at hm
  exact_mod_cast hm

theorem signif_mono (n : ℕ) {x y : ℚ} (hx : 0 ≤ x) (hxy : x ≤ y) : signif n x ≤ signif n y := by
  rcases hx.eq_or_lt with rfl | hx
  · rw [signif, if_pos rfl]
    exact signif_nonneg n hxy
  · have hy : 0 < y := lt_of_lt_of_le hx hxy
    rcases (Int.log_mono_right hx hxy : Int.log 10 x ≤ Int.log 10 y).eq_or_lt with heq | hlt
    · -- the same scale
      have hsc : scale n x = scale n y := by rw [scale, scale, abs_of_pos hx, abs_of_pos hy, heq]
      have hs := scale_pos n y
      rw [signif, signif, if_neg (ne_of_gt hx), if_neg (ne_of_gt hy), hsc]
      have hm := roundAway_mono (mul_le_mul_of_nonneg_right hxy (le_of_lt hs))
      have hm' : ((roundAway (x * scale n y) : ℤ) : ℚ) ≤ roundAway (y * scale n y) := by
        exact_mod_cast hm
      exact (div_le_div_iff_of_pos_right hs).mpr hm'
    · -- a power of ten lies between
      calc signif n x ≤ (10 : ℚ) ^ (Int.log 10 x + 1) := signif_le_pow n hx
        _ ≤ (10 : ℚ) ^ Int.log 10 y := zpow_le_zpow_right₀ (by norm_num) (by omega)
        _ ≤ signif n y := pow_le_signif n hy

/-! ### Binary floating point -/

def roundEven (x : ℚ) : ℤ :=
  if Int.fract x < 1 / 2 then ⌊x⌋
  else if 1 / 2 < Int.fract x then ⌊x⌋ + 1
  else if Even ⌊x⌋ then ⌊x⌋ else ⌊x⌋ + 1

/-- The unit in the last of 53 places. -/
def ulp (x : ℚ) : ℚ := (2 : ℚ) ^ (Int.log 2 |x| - 52)

def binary64 (x : ℚ) : ℚ := if x = 0 then 0 else roundEven (x / ulp x) * ulp x

theorem roundEven_of_le_half {n : ℤ} {x : ℚ} (hn : Even n) (h0 : 0 ≤ x) (h : x ≤ 1 / 2) :
    roundEven (n + x) = n := by
  have hfloor : ⌊(n : ℚ) + x⌋ = n := by
    rw [Int.floor_intCast_add, Int.floor_eq_zero_iff.mpr ⟨h0, by linarith⟩, add_zero]
  have hfract : Int.fract ((n : ℚ) + x) = x := by
    rw [Int.fract, hfloor, add_sub_cancel_left]
  rw [roundEven, hfloor, hfract]
  by_cases hlt : x < 1 / 2
  · rw [if_pos hlt]
  · rw [if_neg hlt, if_neg (by linarith), if_pos hn]

theorem binary64_zero : binary64 0 = 0 := if_pos rfl

/-- A value in the binade of `2^e` that exceeds `2^e` by at most half a unit rounds to `2^e`. -/
theorem binary64_near_pow {e : ℤ} {d : ℚ} (h0 : 0 ≤ d) (h : d ≤ (2 : ℚ) ^ (e - 52) / 2) :
    binary64 ((2 : ℚ) ^ e + d) = (2 : ℚ) ^ e := by
  have hp : (0 : ℚ) < (2 : ℚ) ^ e := zpow_pos (by norm_num) e
  have hu : (0 : ℚ) < (2 : ℚ) ^ (e - 52) := zpow_pos (by norm_num) _
  have hue : (2 : ℚ) ^ e = 2 ^ 52 * (2 : ℚ) ^ (e - 52) := by
    rw [zpow_sub₀ (by norm_num)]
    norm_num
    field_simp
  have hx : (0 : ℚ) < (2 : ℚ) ^ e + d := by linarith
  have hlog : Int.log 2 |(2 : ℚ) ^ e + d| = e := by
    rw [abs_of_pos hx]
    apply le_antisymm
    · apply Int.lt_add_one_iff.mp
      apply (Int.lt_zpow_iff_log_lt (by norm_num) hx).mp
      push_cast
      rw [zpow_add_one₀ (by norm_num), hue] at *
      linarith
    · apply (Int.zpow_le_iff_le_log (by norm_num) hx).mp
      push_cast
      linarith
  have hulp : ulp ((2 : ℚ) ^ e + d) = (2 : ℚ) ^ (e - 52) := by rw [ulp, hlog]
  have hq : ((2 : ℚ) ^ e + d) / (2 : ℚ) ^ (e - 52) =
      (((2 : ℤ) ^ 52 : ℤ) : ℚ) + d / (2 : ℚ) ^ (e - 52) := by
    rw [add_div, hue]
    push_cast
    field_simp
    ring
  rw [binary64, if_neg (ne_of_gt hx), hulp, hq,
    roundEven_of_le_half (by decide) (by positivity) (by rw [div_le_iff₀ hu]; linarith), hue]
  push_cast
  ring

theorem binary64_zpow (e : ℤ) : binary64 ((2 : ℚ) ^ e) = (2 : ℚ) ^ e := by
  have hu : (0 : ℚ) < (2 : ℚ) ^ (e - 52) := zpow_pos (by norm_num) _
  have h := binary64_near_pow (e := e) (le_refl (0 : ℚ)) (by linarith)
  rwa [add_zero] at h

theorem binary64_pow (n : ℕ) : binary64 ((2 : ℚ) ^ n) = (2 : ℚ) ^ n := by
  have h := binary64_zpow n
  rwa [zpow_natCast] at h

theorem binary64_pow_add_one {n : ℕ} (h : 53 ≤ n) :
    binary64 ((2 : ℚ) ^ n + 1) = (2 : ℚ) ^ n := by
  have hone : (1 : ℚ) ≤ (2 : ℚ) ^ ((n : ℤ) - 52) / 2 := by
    have := one_le_zpow₀ (by norm_num : (1 : ℚ) ≤ 2) (show 0 ≤ (n : ℤ) - 53 by omega)
    rw [show (n : ℤ) - 52 = (n : ℤ) - 53 + 1 by ring, zpow_add_one₀ (by norm_num)]
    linarith
  have := binary64_near_pow (e := n) (by norm_num : (0 : ℚ) ≤ 1) hone
  rwa [zpow_natCast] at this

end Round
end Kit
