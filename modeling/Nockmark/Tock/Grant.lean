import Mathlib.Analysis.SpecialFunctions.Log.Base
import Nockmark.Tock.Tiers

/-!
# Tock.Grant

`grant_attempts` (`tock/src/aipow.rs`) rounds a request to the nearest tier in log scale.

The border between two tiers is `grantAttempts_lt_iff`; everything else follows from it.

* `grantAttempts_mono`, `grantAttempts_eq_self_iff`: monotone, and fixed exactly on the tiers.
* `grantAttempts_near`: half a doubling at most from a request in range.
* `grant_log_nearest`: so no tier is nearer.
-/

namespace Nockmark
namespace Tock

/-- A power of two from the floor to the ceiling. -/
def IsTier (n : Nat) : Prop := ∃ a, 12 ≤ a ∧ a ≤ 30 ∧ n = 2 ^ a

theorem isTier_grantAttempts (n : Nat) : IsTier (grantAttempts n) := grantAttempts_eq_pow n

theorem grantAttempts_mono : Monotone grantAttempts := by
  intro n m hnm
  obtain ⟨a, ha, ha', hn⟩ := grantAttempts_eq_pow n
  obtain ⟨b, hb, -, hm⟩ := grantAttempts_eq_pow m
  by_contra hlt
  rw [hn, hm, not_le, Nat.pow_lt_pow_iff_right (by omega)] at hlt
  have hbelow : grantAttempts m < 2 ^ a := by
    rw [hm]
    exact Nat.pow_lt_pow_right (by omega) hlt
  have hsq := (grantAttempts_lt_iff (by omega) ha').mp hbelow
  have hle : n ^ 2 ≤ m ^ 2 := Nat.pow_le_pow_left hnm 2
  have hself := (grantAttempts_lt_iff (n := n) (by omega) ha').mpr (by omega)
  exact absurd hn hself.ne

theorem grantAttempts_eq_self_iff {n : Nat} : grantAttempts n = n ↔ IsTier n := by
  constructor
  · intro h
    rw [← h]
    exact isTier_grantAttempts n
  · rintro ⟨a, h1, h2, rfl⟩
    exact grantAttempts_pow h1 h2

theorem grantAttempts_of_le {n : Nat} (h : n ≤ aiAttemptsMin) : grantAttempts n = 2 ^ 12 := by
  obtain ⟨a, h12, -, ha⟩ := grantAttempts_eq_pow n
  have hle := grantAttempts_mono h
  rw [ha, show aiAttemptsMin = 2 ^ 12 from rfl, grantAttempts_pow (by omega) (by omega),
    Nat.pow_le_pow_iff_right (by omega)] at hle
  rw [ha, show a = 12 by omega]

theorem grantAttempts_of_ge {n : Nat} (h : aiAttemptsMax ≤ n) : grantAttempts n = 2 ^ 30 := by
  obtain ⟨a, -, h30, ha⟩ := grantAttempts_eq_pow n
  have hle := grantAttempts_mono h
  rw [ha, show aiAttemptsMax = 2 ^ 30 from rfl, grantAttempts_pow (by omega) (by omega),
    Nat.pow_le_pow_iff_right (by omega)] at hle
  rw [ha, show a = 30 by omega]

theorem targetForAttempts_refuses {n : Nat} (h : ¬ IsTier n) (expected : Bytes32 → ℚ) :
    targetForAttempts n expected = none :=
  if_pos fun heq => h (grantAttempts_eq_self_iff.mp heq.symm)

/-- From a request in range, the grant is at most half a doubling away. -/
theorem grantAttempts_near {n : Nat} (hmin : aiAttemptsMin ≤ n) (hmax : n ≤ aiAttemptsMax) :
    grantAttempts n ^ 2 ≤ 2 * n ^ 2 ∧ n ^ 2 ≤ 2 * grantAttempts n ^ 2 := by
  obtain ⟨a, h12, h30, ha⟩ := grantAttempts_eq_pow n
  have hsq : (2 ^ a) ^ 2 = 2 ^ (2 * a) := by rw [← pow_mul, Nat.mul_comm]
  rw [ha]
  constructor
  · by_cases hlow : a = 12
    · have hle : 2 ^ a ≤ n := hlow ▸ hmin
      have := Nat.pow_le_pow_left hle 2
      omega
    · have hnot := (grantAttempts_lt_iff (n := n) (by omega) h30).not.mp (by omega)
      omega
  · by_cases hhigh : a = 30
    · have hle : n ≤ 2 ^ a := hhigh ▸ hmax
      have := Nat.pow_le_pow_left hle 2
      omega
    · have hbelow : grantAttempts n < 2 ^ (a + 1) := by
        rw [ha]
        exact Nat.pow_lt_pow_right (by omega) (by omega)
      have hlt := (grantAttempts_lt_iff (by omega) (by omega)).mp hbelow
      have hstep : 2 ^ (2 * (a + 1)) = 4 * 2 ^ (2 * a) := by ring
      omega

/-- The squares that are compared fit u128, and the tier above fits u64. -/
theorem squares_fit (requested : Nat) :
    let n := clamp requested aiAttemptsMin aiAttemptsMax
    n * n < 2 ^ 128 ∧ 2 ^ n.log2 * (2 * 2 ^ n.log2) < 2 ^ 128 ∧ 2 * 2 ^ n.log2 < 2 ^ 64 := by
  obtain ⟨hlo, hhi⟩ := clamp_mem (n := requested) (show aiAttemptsMin ≤ aiAttemptsMax by decide)
  generalize clamp requested aiAttemptsMin aiAttemptsMax = n at *
  have hn : n ≠ 0 := by unfold aiAttemptsMin at hlo; omega
  have hlog := Nat.log2_self_le hn
  have hbound : n ≤ 2 ^ 30 := hhi
  have hsq : n * n ≤ 2 ^ 30 * 2 ^ 30 := Nat.mul_le_mul hbound hbound
  have hsq' : 2 ^ n.log2 * (2 * 2 ^ n.log2) ≤ n * (2 * n) :=
    Nat.mul_le_mul hlog (Nat.mul_le_mul_left 2 hlog)
  have hdouble : n * (2 * n) = 2 * (n * n) := by ring
  refine ⟨by omega, by omega, by omega⟩

/-! ### Log scale -/

theorem logb_two_pow (a : Nat) : Real.logb 2 ((2 ^ a : Nat) : ℝ) = a := by
  push_cast
  rw [Real.logb_pow, Real.logb_self_eq_one (by norm_num), mul_one]

/-- Squares at most a factor two apart are logarithms at most a half apart. -/
theorem logb_le_of_sq_le {m n : Nat} (hm : 0 < m) (hn : 0 < n) (h : m ^ 2 ≤ 2 * n ^ 2) :
    2 * Real.logb 2 m ≤ 1 + 2 * Real.logb 2 n := by
  have hm' : (0 : ℝ) < m := by exact_mod_cast hm
  have hn' : (0 : ℝ) < n := by exact_mod_cast hn
  have hcast : (m : ℝ) ^ 2 ≤ 2 * (n : ℝ) ^ 2 := by exact_mod_cast h
  have hlog := Real.logb_le_logb_of_le (b := 2) (by norm_num) (by positivity) hcast
  rw [Real.logb_pow, Real.logb_mul (by norm_num) (by positivity), Real.logb_pow,
    Real.logb_self_eq_one (by norm_num)] at hlog
  exact_mod_cast hlog

theorem grantAttempts_nearest {n b : Nat} (hmin : aiAttemptsMin ≤ n) (hmax : n ≤ aiAttemptsMax) :
    |Real.logb 2 n - Real.logb 2 (grantAttempts n)| ≤ |Real.logb 2 n - b| := by
  obtain ⟨hup, hdown⟩ := grantAttempts_near hmin hmax
  obtain ⟨a, -, -, ha⟩ := grantAttempts_eq_pow n
  have hn : 0 < n := by unfold aiAttemptsMin at hmin; omega
  have hr : 0 < grantAttempts n := by rw [ha]; exact Nat.two_pow_pos a
  have h1 := logb_le_of_sq_le hr hn hup
  have h2 := logb_le_of_sq_le hn hr hdown
  rw [ha, logb_two_pow] at *
  have hhalf : |Real.logb 2 n - a| ≤ 1 / 2 := by
    rw [abs_le]
    constructor <;> linarith
  by_cases hab : a = b
  · rw [hab]
  · -- another tier is a doubling away from the granted one
    have hone : (1 : ℝ) ≤ |(a : ℝ) - b| := by
      have hint : (1 : ℤ) ≤ |(a : ℤ) - b| := Int.one_le_abs (by omega)
      exact_mod_cast hint
    have htri := abs_sub_abs_le_abs_sub ((a : ℝ) - b) (a - Real.logb 2 n)
    have hsub : (a : ℝ) - b - (a - Real.logb 2 n) = Real.logb 2 n - b := by ring
    rw [hsub, abs_sub_comm (a : ℝ) (Real.logb 2 n)] at htri
    linarith

/-- For every request: the grant is a tier; granting is monotone and idempotent, fixed exactly on
the tiers, and nothing else has a target; and no tier is nearer to a request in range, in log
scale. -/
theorem grant_log_nearest :
    (∀ n, IsTier (grantAttempts n)) ∧ Monotone grantAttempts ∧
    (∀ n, grantAttempts (grantAttempts n) = grantAttempts n) ∧
    (∀ n, grantAttempts n = n ↔ IsTier n) ∧
    (∀ n, ¬ IsTier n → ∀ expected, targetForAttempts n expected = none) ∧
    (∀ n, aiAttemptsMin ≤ n → n ≤ aiAttemptsMax →
      grantAttempts n ^ 2 ≤ 2 * n ^ 2 ∧ n ^ 2 ≤ 2 * grantAttempts n ^ 2 ∧
      ∀ b : Nat, IsTier (2 ^ b) →
        |Real.logb 2 n - Real.logb 2 (grantAttempts n)| ≤ |Real.logb 2 n - b|) ∧
    ∀ requested,
      let n := clamp requested aiAttemptsMin aiAttemptsMax
      n * n < 2 ^ 128 ∧ 2 ^ n.log2 * (2 * 2 ^ n.log2) < 2 ^ 128 ∧ 2 * 2 ^ n.log2 < 2 ^ 64 := by
  refine ⟨isTier_grantAttempts, grantAttempts_mono, grantAttempts_idem,
    fun _ => grantAttempts_eq_self_iff, fun _ => targetForAttempts_refuses, ?_, squares_fit⟩
  intro n hmin hmax
  obtain ⟨hup, hdown⟩ := grantAttempts_near hmin hmax
  exact ⟨hup, hdown, fun _ _ => grantAttempts_nearest hmin hmax⟩

end Tock
end Nockmark
