import Nockmark.Kit.Double
import Nockmark.Registry.Aipow

/-!
# Registry.FiniteRates

The figures of a run as doubles: `rates` with every operation rounded up to the last, `signif4`,
which is exact here, and `none` where one of them leaves the doubles. The error bar `sigma_frac` is
left out, here as in `rates`: it is `1 / √k` for a `k` of one or more.

* `expected_within`: whatever the target, a win is credited a positive finite number of attempts.
* `doubleRates_finite`: the figures of one win or more are positive and finite.
-/

namespace Nockmark
namespace Registry

open Kit.Double (Within)
open Kit.Round (binary64)
open Tock (Bytes32 accumulate attemptsAt)

/-- `mac_total / (window_ms.max(1) as f64 / 1000.0)` -/
def doublePerSec (macTotal : ℚ) (windowMs : Nat) : Option ℚ := do
  let ms ← Kit.Double.round (max windowMs 1 : Nat)
  let seconds ← Kit.Double.div ms 1000
  Kit.Double.div macTotal seconds

/-- `rates` in doubles, up to the exact `signif4` of each figure. -/
def doubleRates (moeThreshold : Bytes32 → Except String Bytes32) (statement : Statement) (k : Nat)
    (target : Bytes32) (serverWindowMs grindElapsedMs : Nat) : Option AiRates := do
  let expected := statement.expectedAttemptsPerWin binary64 moeThreshold target
  let wins ← Kit.Double.round k
  let attempts ← Kit.Double.mul wins expected
  let macTotal ← Kit.Double.mul attempts statement.macEquivPerAttempt
  let verified ← doublePerSec macTotal serverWindowMs
  let grind ← doublePerSec macTotal grindElapsedMs
  let zk ← Kit.Double.div verified macEquivPerZkAttempt
  return ⟨signif4 verified, signif4 grind, signif4 zk, expected⟩

/-- A positive normal double. -/
def IsFigure (x : ℚ) : Prop := Within (-1022) 1023 x

structure AiRates.Finite (r : AiRates) : Prop where
  verified : IsFigure r.verifiedMacPerSecLb
  grind : IsFigure r.grindMacPerSec
  zk : IsFigure r.zkAttemptEquivPerSec
  expected : IsFigure r.expectedAttemptsPerWin

/-! ### Attempts per win -/

/-- Each byte adds eight bits, and what its roundings add is less than another. -/
theorem accumulate_le (bytes : List UInt8) :
    0 ≤ accumulate binary64 bytes ∧
      accumulate binary64 bytes ≤ (2 : ℚ) ^ ((9 * bytes.length : ℕ) : ℤ) := by
  induction bytes with
  | nil => exact ⟨le_refl _, zero_le_one⟩
  | cons b bs ih =>
    have hb : (b.toNat : ℚ) ≤ 256 := by
      have := b.toNat_lt
      exact_mod_cast (by omega : b.toNat ≤ 256)
    have hshift : accumulate binary64 bs * 256 ≤ (2 : ℚ) ^ ((9 * bs.length + 8 : ℕ) : ℤ) := by
      rw [zpow_natCast, pow_add, ← zpow_natCast]
      norm_num
      exact ih.2
    obtain ⟨h0, h1⟩ := Kit.Double.binary64_le_zpow (mul_nonneg ih.1 (by norm_num)) hshift
    have hone : (1 : ℚ) ≤ 2 ^ (9 * bs.length) := one_le_pow₀ (by norm_num)
    have hsum : binary64 (accumulate binary64 bs * 256) + b.toNat ≤
        (2 : ℚ) ^ ((9 * (b :: bs).length : ℕ) : ℤ) := by
      rw [zpow_natCast, pow_add] at h1
      rw [zpow_natCast, List.length_cons, show 9 * (bs.length + 1) = 9 * bs.length + 9 by omega,
        pow_add]
      linarith
    exact Kit.Double.binary64_le_zpow (add_nonneg h0 (Nat.cast_nonneg _)) hsum

theorem attemptsAt_within (threshold : Bytes32) :
    Within (-33) 256 (attemptsAt binary64 threshold.toList) := by
  obtain ⟨h0, h1⟩ := accumulate_le threshold.toList
  rw [threshold.length_eq] at h1
  have hsum : Within 0 289 (accumulate binary64 threshold.toList + 1) := by
    constructor
    · rw [zpow_zero]
      linarith
    · have hone : (1 : ℚ) ≤ (2 : ℚ) ^ ((9 * 32 : ℕ) : ℤ) :=
        one_le_zpow₀ (by norm_num) (by norm_num)
      rw [show (289 : ℤ) = ((9 * 32 : ℕ) : ℤ) + 1 by norm_num, zpow_add_one₀ two_ne_zero]
      linarith
  have hall : Within 256 256 ((2 : ℚ) ^ 256) := Kit.Double.within_zpow 256
  exact (hall.div hsum.binary64).binary64

theorem expected_within (moeThreshold : Bytes32 → Except String Bytes32) (s : Statement)
    (target : Bytes32) :
    Within (-33) 256 (s.expectedAttemptsPerWin binary64 moeThreshold target) := by
  cases s with
  | dense => exact attemptsAt_within target
  | canonicalMoe =>
    rw [Statement.expectedAttemptsPerWin, Tock.expectedAttemptsPerMoeWin]
    split
    · exact attemptsAt_within _
    · exact (Kit.Double.within_zpow 0).mono (by norm_num) (by norm_num)

/-! ### The figures -/

theorem doublePerSec_within {a b : ℤ} {macTotal : ℚ} (h : Within a b macTotal) (ha : -967 ≤ a)
    (hb : b < 1014) {windowMs : Nat} (hw : windowMs < 2 ^ 64) :
    ∃ rate, doublePerSec macTotal windowMs = some rate ∧ Within (a - 55) (b + 10) rate := by
  have hms : Within 0 64 ((max windowMs 1 : Nat) : ℚ) :=
    Kit.Double.within_natCast (Nat.le_max_right _ _) (by omega)
  have hthousand : Within 9 10 1000 := ⟨by norm_num, by norm_num⟩
  obtain ⟨ms, heqms, hms'⟩ := Kit.Double.round_within hms (by norm_num) (by norm_num)
  obtain ⟨seconds, heqs, hs⟩ := Kit.Double.div_within hms' hthousand (by norm_num) (by norm_num)
  obtain ⟨rate, heq, hr⟩ := Kit.Double.div_within h hs (by omega) (by omega)
  refine ⟨rate, ?_, hr.mono (by omega) (by omega)⟩
  simp only [doublePerSec, heqms, heqs, heq, Option.bind_eq_bind, Option.bind_some]

/-- Four digits of a number are within a factor of ten of it. -/
theorem signif4_within {a b : ℤ} {x : ℚ} (h : Within a b x) :
    Within (a - 4) (b + 4) (signif4 x) := by
  have hlo := Kit.Round.pow_le_signif 3 h.pos
  have hhi := Kit.Round.signif_le_pow 3 h.pos
  have h10 : (10 : ℚ) ≠ 0 := by norm_num
  have hlog : (10 : ℚ) ^ Int.log 10 x ≤ x := by
    have := Int.zpow_log_le_self (b := 10) (by norm_num) h.pos
    exact_mod_cast this
  have hlog' : x ≤ (10 : ℚ) ^ (Int.log 10 x + 1) := by
    have := Int.lt_zpow_succ_log_self (b := 10) (by norm_num) x
    exact_mod_cast le_of_lt this
  rw [zpow_add_one₀ h10] at hhi hlog'
  have h1 := h.1
  have h2 := h.2
  have ha : (2 : ℚ) ^ a = (2 : ℚ) ^ (a - 4) * 16 := by
    rw [zpow_sub₀ (by norm_num)]
    norm_num
  have hb : (2 : ℚ) ^ (b + 4) = (2 : ℚ) ^ b * 16 := by
    rw [zpow_add₀ (by norm_num)]
    norm_num
  have hpos : (0 : ℚ) < (2 : ℚ) ^ (a - 4) := zpow_pos (by norm_num) _
  constructor
  · show _ ≤ Kit.Round.signif 3 x
    linarith
  · show Kit.Round.signif 3 x ≤ _
    have hposb : (0 : ℚ) < (2 : ℚ) ^ b := zpow_pos (by norm_num) _
    linarith

theorem doubleRates_finite (moeThreshold : Bytes32 → Except String Bytes32) (s : Statement)
    (target : Bytes32) {k serverWindowMs grindElapsedMs : Nat} (h1 : 1 ≤ k) (hk : k < 2 ^ 64)
    (hs : serverWindowMs < 2 ^ 64) (hg : grindElapsedMs < 2 ^ 64) :
    ∃ figures, doubleRates moeThreshold s k target serverWindowMs grindElapsedMs = some figures ∧
      figures.Finite := by
  have hexpected := expected_within moeThreshold s target
  have hmac : Within 16 16 s.macEquivPerAttempt := by
    cases s <;> exact ⟨by norm_num [Statement.macEquivPerAttempt],
      by norm_num [Statement.macEquivPerAttempt]⟩
  have hzkMac : Within 34 35 macEquivPerZkAttempt :=
    ⟨by norm_num [macEquivPerZkAttempt], by norm_num [macEquivPerZkAttempt]⟩
  obtain ⟨wins, heqw, hw⟩ :=
    Kit.Double.round_within (Kit.Double.within_natCast h1 hk) (by norm_num) (by norm_num)
  obtain ⟨attempts, heqa, ha⟩ := Kit.Double.mul_within hw hexpected (by norm_num) (by norm_num)
  obtain ⟨macTotal, heqm, hm⟩ := Kit.Double.mul_within ha hmac (by norm_num) (by norm_num)
  obtain ⟨verified, heqv, hv⟩ := doublePerSec_within hm (by norm_num) (by norm_num) hs
  obtain ⟨grind, heqg, hgr⟩ := doublePerSec_within hm (by norm_num) (by norm_num) hg
  obtain ⟨zk, heqz, hz⟩ := Kit.Double.div_within hv hzkMac (by norm_num) (by norm_num)
  refine ⟨⟨signif4 verified, signif4 grind, signif4 zk,
    s.expectedAttemptsPerWin binary64 moeThreshold target⟩, ?_, ?_⟩
  · simp only [doubleRates, heqw, heqa, heqm, heqv, heqg, heqz, Option.bind_eq_bind,
      Option.bind_some, Option.pure_def]
  · constructor
    case verified => exact (signif4_within hv).mono (by norm_num) (by norm_num)
    case grind => exact (signif4_within hgr).mono (by norm_num) (by norm_num)
    case zk => exact (signif4_within hz).mono (by norm_num) (by norm_num)
    case expected => exact hexpected.mono (by norm_num) (by norm_num)

end Registry
end Nockmark
