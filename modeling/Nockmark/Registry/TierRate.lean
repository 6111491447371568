import Mathlib
import Nockmark.Registry.Challenge

/-!
# Registry.TierRate

Can a client raise its rate by the tier it picks?

A machine of `g` attempts a second grinds `k` wins of `t` expected attempts each in `k · t / g`
seconds, and proves for a fixed time on top. The grind's share of the window grows with `t`.

* `window`: the server window of such a run, in whole milliseconds.
* `window_mul_lt`: `m` times the attempts take less than `m` times the window.
* `harder_tier_truer`: so a harder tier measures more, and no tier more than the machine does.
-/

namespace Nockmark
namespace Registry

open Tock (Bytes32 grantAttempts)

/-- The verified rate before it is rounded to four digits. -/
def verifiedRate (rnd : ℚ → ℚ) (moeThreshold : Bytes32 → Except String Bytes32) (s : Statement)
    (k : Nat) (target : Bytes32) (serverWindowMs : Nat) : ℚ :=
  macPerSec (k * s.expectedAttemptsPerWin rnd moeThreshold target * s.macEquivPerAttempt)
    serverWindowMs

theorem rates_verified (rnd : ℚ → ℚ) (moeThreshold : Bytes32 → Except String Bytes32)
    (s : Statement) (k : Nat) (target : Bytes32) (serverWindowMs grindElapsedMs : Nat) :
    (rates rnd moeThreshold s k target serverWindowMs grindElapsedMs).verifiedMacPerSecLb =
      signif4 (verifiedRate rnd moeThreshold s k target serverWindowMs) := rfl

/-- A tier's target is credited with exactly the tier's attempts. -/
theorem targetForAttempts_eq_some {rnd : ℚ → ℚ} {moeThreshold : Bytes32 → Except String Bytes32}
    {s : Statement} {attempts : Nat} {target : Bytes32}
    (h : s.targetForAttempts rnd moeThreshold attempts = some target) :
    attempts = grantAttempts attempts ∧
      s.expectedAttemptsPerWin rnd moeThreshold target = attempts := by
  unfold Statement.targetForAttempts Tock.targetForAttempts at h
  split at h
  · cases h
  rename_i hgrant
  obtain ⟨bit, -, hbit⟩ := List.exists_of_findSome?_eq_some h
  split at hbit
  · split at hbit
    · rename_i hexp
      cases hbit
      exact ⟨not_not.mp hgrant, hexp⟩
    · cases hbit
  · cases hbit

/-- A granted tier divides every harder one. -/
theorem exists_mul_of_granted {a b : Nat} (ha : a = grantAttempts a) (hb : b = grantAttempts b)
    (hab : a < b) : 0 < a ∧ ∃ m, 2 ≤ m ∧ b = m * a := by
  obtain ⟨i, -, -, hi⟩ := Tock.grantAttempts_eq_pow a
  obtain ⟨j, -, -, hj⟩ := Tock.grantAttempts_eq_pow b
  rw [ha, hi, hb, hj] at hab
  have hij : i < j := (Nat.pow_lt_pow_iff_right (by omega)).mp hab
  refine ⟨by rw [ha, hi]; exact Nat.two_pow_pos i, 2 ^ (j - i), ?_, ?_⟩
  · exact Nat.le_self_pow (by omega) 2
  · rw [ha, hi, hb, hj, ← pow_add]
    congr 1
    omega

/-! ### Windows -/

/-- `k` wins of `t` expected attempts at `g` attempts a second, and `proving` ms. -/
noncomputable def window (g : ℝ) (k proving t : Nat) : Nat := ⌈1000 * k * t / g⌉₊ + proving

theorem ceil_mul_le (m : ℕ) (x : ℝ) : ⌈m * x⌉₊ ≤ m * ⌈x⌉₊ := by
  apply Nat.ceil_le.mpr
  push_cast
  exact mul_le_mul_of_nonneg_left (Nat.le_ceil x) (Nat.cast_nonneg m)

theorem window_mul_lt (g : ℝ) (k : Nat) {proving : Nat} (hp : 1 ≤ proving) (t : Nat) {m : Nat}
    (hm : 2 ≤ m) : window g k proving (m * t) < m * window g k proving t := by
  have hx : (1000 * k * (m * t : ℕ) / g : ℝ) = m * (1000 * k * t / g) := by push_cast; ring
  have hceil := ceil_mul_le m (1000 * k * t / g)
  have hprove : proving < m * proving := by nlinarith
  unfold window
  rw [hx, Nat.mul_add]
  omega

/-- The grind alone fits the window. -/
theorem grind_le_window {g : ℝ} (hg : 0 < g) (k proving t : Nat) :
    1000 * k * t ≤ g * window g k proving t := by
  have h : (1000 * k * t / g : ℝ) ≤ window g k proving t := by
    unfold window
    push_cast
    have := Nat.le_ceil (1000 * k * t / g : ℝ)
    linarith [(Nat.cast_nonneg proving : (0 : ℝ) ≤ proving)]
  rw [div_le_iff₀ hg] at h
  linarith

theorem window_pos (g : ℝ) (k : Nat) {proving : Nat} (hp : 1 ≤ proving) (t : Nat) :
    1 ≤ window g k proving t := le_trans hp (Nat.le_add_left _ _)

/-! ### Rates -/

section Rates

variable {rnd : ℚ → ℚ} {moeThreshold : Bytes32 → Except String Bytes32} {s : Statement}
  {k proving : Nat}

theorem verifiedRate_eq {t : Nat} {target : Bytes32}
    (ht : s.targetForAttempts rnd moeThreshold t = some target) {windowMs : Nat}
    (hw : 1 ≤ windowMs) :
    verifiedRate rnd moeThreshold s k target windowMs =
      1000 * k * t * s.macEquivPerAttempt / windowMs := by
  rw [verifiedRate, macPerSec, (targetForAttempts_eq_some ht).2, Nat.max_eq_left hw,
    div_div_eq_mul_div]
  congr 1
  ring

theorem macEquivPerAttempt_pos (s : Statement) : 0 < s.macEquivPerAttempt := by
  cases s <;> norm_num [Statement.macEquivPerAttempt]

theorem verifiedRate_le {g : ℝ} (hg : 0 < g) (hp : 1 ≤ proving) {t : Nat} {target : Bytes32}
    (ht : s.targetForAttempts rnd moeThreshold t = some target) :
    (verifiedRate rnd moeThreshold s k target (window g k proving t) : ℝ) ≤
      s.macEquivPerAttempt * g := by
  have hw := window_pos g k hp t
  have hwpos : (0 : ℝ) < window g k proving t := by exact_mod_cast hw
  have hF : (0 : ℝ) ≤ s.macEquivPerAttempt := by exact_mod_cast (macEquivPerAttempt_pos s).le
  rw [verifiedRate_eq ht hw]
  push_cast
  rw [div_le_iff₀ hwpos]
  calc (1000 * k * t * s.macEquivPerAttempt : ℝ)
      ≤ g * window g k proving t * s.macEquivPerAttempt :=
        mul_le_mul_of_nonneg_right (grind_le_window hg k proving t) hF
    _ = s.macEquivPerAttempt * g * window g k proving t := by ring

theorem verifiedRate_lt (hk : 1 ≤ k) (g : ℝ) (hp : 1 ≤ proving) {a b : Nat} {ta tb : Bytes32}
    (ha : s.targetForAttempts rnd moeThreshold a = some ta)
    (hb : s.targetForAttempts rnd moeThreshold b = some tb) (hab : a < b) :
    verifiedRate rnd moeThreshold s k ta (window g k proving a) <
      verifiedRate rnd moeThreshold s k tb (window g k proving b) := by
  obtain ⟨ha0, m, hm, rfl⟩ :=
    exists_mul_of_granted (targetForAttempts_eq_some ha).1 (targetForAttempts_eq_some hb).1 hab
  have hwa := window_pos g k hp a
  have hwb := window_pos g k hp (m * a)
  have hlt := window_mul_lt g k hp a hm
  have hwa' : (0 : ℚ) < window g k proving a := by exact_mod_cast hwa
  have hwb' : (0 : ℚ) < window g k proving (m * a) := by exact_mod_cast hwb
  have hlt' : (window g k proving (m * a) : ℚ) < m * window g k proving a := by exact_mod_cast hlt
  have hgain : (0 : ℚ) < 1000 * k * a * s.macEquivPerAttempt := by
    have := macEquivPerAttempt_pos s
    positivity
  rw [verifiedRate_eq ha hwa, verifiedRate_eq hb hwb, div_lt_div_iff₀ hwa' hwb']
  calc 1000 * k * a * s.macEquivPerAttempt * (window g k proving (m * a) : ℚ)
      < 1000 * k * a * s.macEquivPerAttempt * (m * window g k proving a) :=
        mul_lt_mul_of_pos_left hlt' hgain
    _ = 1000 * k * (m * a : ℕ) * s.macEquivPerAttempt * window g k proving a := by
        push_cast; ring

/-- For every machine, proving cost, `k` and statement: of two granted tiers the harder one
measures strictly more, and neither more than the machine's own throughput. The published figure
is what is measured, rounded to four digits. -/
theorem harder_tier_truer (hk : 1 ≤ k) {g : ℝ} (hg : 0 < g) (hp : 1 ≤ proving) {a b : Nat}
    {ta tb : Bytes32} (ha : s.targetForAttempts rnd moeThreshold a = some ta)
    (hb : s.targetForAttempts rnd moeThreshold b = some tb) (hab : a < b) :
    verifiedRate rnd moeThreshold s k ta (window g k proving a) <
        verifiedRate rnd moeThreshold s k tb (window g k proving b) ∧
      (∀ t target, s.targetForAttempts rnd moeThreshold t = some target →
        (verifiedRate rnd moeThreshold s k target (window g k proving t) : ℝ) ≤
          s.macEquivPerAttempt * g) ∧
      ∀ target serverWindowMs grindElapsedMs,
        (rates rnd moeThreshold s k target serverWindowMs grindElapsedMs).verifiedMacPerSecLb =
          signif4 (verifiedRate rnd moeThreshold s k target serverWindowMs) :=
  ⟨verifiedRate_lt hk g hp ha hb hab, fun _ _ ht => verifiedRate_le hg hp ht,
    rates_verified rnd moeThreshold s k⟩

end Rates

/-- A thousand attempts a second, seven seconds of proving, and the two lowest tiers. -/
theorem harder_tier_truer_lowest :
    ∃ ta tb : Bytes32,
      verifiedRate Kit.Round.binary64 Tock.scaledThreshold .canonicalMoe 4 ta
          (window 1000 4 7000 4096) <
        verifiedRate Kit.Round.binary64 Tock.scaledThreshold .canonicalMoe 4 tb
          (window 1000 4 7000 8192) := by
  have ha := Statement.targetForAttempts_granted Tock.scaledThreshold_law .canonicalMoe 4096
  have hb := Statement.targetForAttempts_granted Tock.scaledThreshold_law .canonicalMoe 8192
  rw [show grantAttempts 4096 = 4096 by decide] at ha
  rw [show grantAttempts 8192 = 8192 by decide] at hb
  obtain ⟨ta, hta⟩ := Option.isSome_iff_exists.mp ha
  obtain ⟨tb, htb⟩ := Option.isSome_iff_exists.mp hb
  exact ⟨ta, tb, (harder_tier_truer (by omega) (by norm_num) (by omega) hta htb (by omega)).1⟩

end Registry
end Nockmark
