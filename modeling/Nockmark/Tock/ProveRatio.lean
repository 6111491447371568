import Mathlib.Analysis.SpecialFunctions.Sqrt
import Nockmark.Tock.Grant

/-!
# Tock.ProveRatio

`tier_for_prove_ratio` (`tock/src/aipow.rs`) sizes the tier so that a win's grinding takes
`AI_TIER_PROVE_RATIO` times its certificate. The request is cut to an integer and rounded to a
tier, so the promised share is met within a factor of `√2`.

Measurements are exact: any ordered field with floors for the code, the reals for the bounds.

* `tierForProveRatio_eq`: the tier is the grant of the request's floor.
* `recovery_eq`: neither the number of wins nor the host's speed matters, only request and tier.
* `promised_share_recovered`: how far the share of every host is from the promised one.
-/

namespace Nockmark
namespace Tock

section Field

variable {K : Type} [Field K] [LinearOrder K] [FloorSemiring K]

/-- `AI_TIER_PROVE_RATIO` -/
def aiTierProveRatio : Nat := 2

/-- `per_win as u64`, which saturates. -/
def asU64 (x : K) : Nat := min ⌊x⌋₊ (2 ^ 64 - 1)

def tierForProveRatio (attemptsPerSec proveSecs : K) : Nat :=
  let perWin := attemptsPerSec * aiTierProveRatio * proveSecs
  -- an exact product is always finite
  grantAttempts (if 0 < perWin then asU64 perWin else 0)

/-- The share of a `k`-win run that is spent grinding. -/
def recovery (attemptsPerSec proveSecs : K) (tier k : Nat) : K :=
  let grind := k * tier / attemptsPerSec
  let proving := k * proveSecs
  grind / (grind + proving)

/-! ### The tier -/

/-- The cast saturates far above the highest tier, so only the floor counts. -/
theorem grantAttempts_asU64 (x : K) : grantAttempts (asU64 x) = grantAttempts ⌊x⌋₊ := by
  unfold asU64
  rcases Nat.le_total ⌊x⌋₊ (2 ^ 64 - 1) with hle | hge
  · rw [Nat.min_eq_left hle]
  · have hmax : aiAttemptsMax ≤ 2 ^ 64 - 1 := by decide
    rw [Nat.min_eq_right hge, grantAttempts_of_ge hmax, grantAttempts_of_ge (hmax.trans hge)]

theorem tierForProveRatio_eq {g p x : K} (hx : x = 2 * g * p) (hpos : 0 < x) :
    tierForProveRatio g p = grantAttempts ⌊x⌋₊ := by
  have hperWin : g * aiTierProveRatio * p = x := by
    rw [hx, aiTierProveRatio, Nat.cast_ofNat]
    ring
  simp only [tierForProveRatio, hperWin, if_pos hpos, grantAttempts_asU64]

example : tierForProveRatio (1000 : ℚ) 7 = 2 ^ 14 := by decide +kernel

/-! ### The share -/

theorem recovery_eq [IsStrictOrderedRing K] {g p x : K} (hg : 0 < g) (hp : 0 < p)
    (hx : x = 2 * g * p) {t k : Nat} (hk : 1 ≤ k) : recovery g p t k = 2 * t / (2 * t + x) := by
  have hk' : (0 : K) < k := by exact_mod_cast hk
  have ht : (0 : K) ≤ t := Nat.cast_nonneg t
  have hgp : 0 < g * p := mul_pos hg hp
  have hgrind : recovery g p t k = t / (t + g * p) := by
    unfold recovery
    field_simp
  rw [hgrind, hx, div_eq_div_iff (by positivity) (by positivity)]
  ring

end Field

/-- Rounding to the nearest tier keeps the squares within a factor of two, up to the cut. -/
theorem tierForProveRatio_near {g p x : ℝ} (hx : x = 2 * g * p) (hmin : 2 ^ 12 ≤ x)
    (hmax : x ≤ 2 ^ 30) :
    (tierForProveRatio g p : ℝ) ^ 2 ≤ 2 * x ^ 2 ∧
      (x - 1) ^ 2 < 2 * (tierForProveRatio g p : ℝ) ^ 2 := by
  have hpos : 0 < x := lt_of_lt_of_le (by norm_num) hmin
  have hlo : aiAttemptsMin ≤ ⌊x⌋₊ := Nat.le_floor (by unfold aiAttemptsMin; exact_mod_cast hmin)
  have hhi : ⌊x⌋₊ ≤ aiAttemptsMax := by
    apply Nat.floor_le_of_le
    unfold aiAttemptsMax
    exact_mod_cast hmax
  obtain ⟨hup, hdown⟩ := grantAttempts_near hlo hhi
  rw [← tierForProveRatio_eq hx hpos] at hup hdown
  have hup' : (tierForProveRatio g p : ℝ) ^ 2 ≤ 2 * (⌊x⌋₊ : ℝ) ^ 2 := by exact_mod_cast hup
  have hdown' : (⌊x⌋₊ : ℝ) ^ 2 ≤ 2 * (tierForProveRatio g p : ℝ) ^ 2 := by exact_mod_cast hdown
  have hfloor : (⌊x⌋₊ : ℝ) ≤ x := Nat.floor_le hpos.le
  have hcut : x - 1 < ⌊x⌋₊ := Nat.sub_one_lt_floor x
  have hcut' : (x - 1) ^ 2 < (⌊x⌋₊ : ℝ) ^ 2 := pow_lt_pow_left₀ hcut (by linarith) (by omega)
  have hfloor' : (⌊x⌋₊ : ℝ) ^ 2 ≤ x ^ 2 := pow_le_pow_left₀ (Nat.cast_nonneg _) hfloor 2
  exact ⟨by linarith, by linarith⟩

theorem sq_sqrt_two_mul (x : ℝ) : (√2 * x) ^ 2 = 2 * x ^ 2 := by
  rw [mul_pow, Real.sq_sqrt (by norm_num)]

/-- The bounds on the share, from the squares. -/
theorem share_bounds {t x : ℝ} (ht : 0 < t) (hx : 0 < x) (hup : t ^ 2 ≤ 2 * x ^ 2)
    (hdown : (x - 1) ^ 2 < 2 * t ^ 2) :
    2 * t / (2 * t + x) ≤ 2 * √2 / (2 * √2 + 1) ∧
      2 * t / ((2 + √2) * t + 1) < 2 * t / (2 * t + x) := by
  have htx : t ≤ √2 * x := by
    apply le_of_pow_le_pow_left₀ (n := 2) (by omega) (by positivity)
    rw [sq_sqrt_two_mul]
    exact hup
  have hxt : x - 1 < √2 * t := by
    apply lt_of_pow_lt_pow_left₀ 2 (by positivity)
    rw [sq_sqrt_two_mul]
    exact hdown
  have hsqrt : 0 < √2 := Real.sqrt_pos.mpr (by norm_num)
  constructor
  · rw [div_le_div_iff₀ (by positivity) (by positivity)]
    calc 2 * t * (2 * √2 + 1) = 4 * √2 * t + 2 * t := by ring
      _ ≤ 4 * √2 * t + 2 * (√2 * x) := by linarith
      _ = 2 * √2 * (2 * t + x) := by ring
  · apply div_lt_div_of_pos_left (by positivity) (by positivity)
    calc 2 * t + x < 2 * t + (√2 * t + 1) := by linarith
      _ = (2 + √2) * t + 1 := by ring

/-- On every host, and for every number of wins: a request in range is rounded to a tier within
a factor of `√2`, up to the cut, and so is the share of the run that is spent grinding; a request
out of range gets the nearer bound. -/
theorem promised_share_recovered {g p x : ℝ} (hg : 0 < g) (hp : 0 < p) (hx : x = 2 * g * p)
    {t : Nat} (ht : t = tierForProveRatio g p) :
    (2 ^ 12 ≤ x → x ≤ 2 ^ 30 →
      (∃ a, t = 2 ^ a) ∧ (t : ℝ) ^ 2 ≤ 2 * x ^ 2 ∧ (x - 1) ^ 2 < 2 * (t : ℝ) ^ 2 ∧
      ∀ k : Nat, 1 ≤ k →
        recovery g p t k = 2 * t / (2 * t + x) ∧
        recovery g p t k ≤ 2 * √2 / (2 * √2 + 1) ∧
        2 * t / ((2 + √2) * t + 1) < recovery g p t k) ∧
    (x < 2 ^ 12 → t = 2 ^ 12) ∧ (2 ^ 30 < x → t = 2 ^ 30) := by
  have hpos : 0 < x := by rw [hx]; positivity
  have heq : t = grantAttempts ⌊x⌋₊ := ht.trans (tierForProveRatio_eq hx hpos)
  obtain ⟨a, -, -, ha⟩ := grantAttempts_eq_pow ⌊x⌋₊
  refine ⟨fun hmin hmax => ?_, fun hlow => ?_, fun hhigh => ?_⟩
  · obtain ⟨hup, hdown⟩ := tierForProveRatio_near hx hmin hmax
    rw [← ht] at hup hdown
    have htpos : (0 : ℝ) < t := by
      rw [heq, ha]
      positivity
    refine ⟨⟨a, heq.trans ha⟩, hup, hdown, fun k hk => ?_⟩
    rw [recovery_eq hg hp hx hk]
    exact ⟨rfl, share_bounds htpos hpos hup hdown⟩
  · rw [heq, grantAttempts_of_le]
    apply Nat.floor_le_of_le
    unfold aiAttemptsMin
    exact_mod_cast hlow.le
  · rw [heq, grantAttempts_of_ge]
    apply Nat.le_floor
    unfold aiAttemptsMax
    exact_mod_cast hhigh.le

theorem promised_share_recovered_sevenSeconds :
    (tierForProveRatio (1000 : ℝ) 7 : ℝ) ^ 2 ≤ 2 * 14000 ^ 2 ∧
      recovery (1000 : ℝ) 7 (tierForProveRatio (1000 : ℝ) 7) 4 ≤ 2 * √2 / (2 * √2 + 1) := by
  obtain ⟨-, hup, -, hshare⟩ :=
    (promised_share_recovered (x := 14000) (show (0 : ℝ) < 1000 by norm_num)
      (show (0 : ℝ) < 7 by norm_num) (by norm_num) rfl).1 (by norm_num) (by norm_num)
  exact ⟨hup, (hshare 4 (by norm_num)).2.1⟩

end Tock
end Nockmark
