import Nockmark.Kit.Round
import Nockmark.Tock.AipowMoe

/-!
# Tock.Tiers

Difficulty tiers (`tock/src/aipow.rs`): a granted tier is a power of two, realized by the target
with a single bit at which the statement's own score function gives exactly the tier.

The f64 operations round with `rnd`: `Kit.Round.binary64` is the code's arithmetic, `id` the exact
one. `canonical_grind_threshold` is a parameter; `ThresholdLaw` is what the code relies on.

* `grantAttempts_eq_pow`: the grant is `2^a` with `12 ≤ a ≤ 30`, and its own grant.
* `attemptsAt_pow2Target`: in f64, `2^256 / (2^bit + 1)` is exactly `2^(256 - bit)`.
* `targetForAttempts_dense`, `targetForAttempts_moe`: so every granted tier has a target.
-/

namespace Nockmark
namespace Tock

open Kit.Round

/-- The f64 that the byte loop accumulates, last byte first. -/
def accumulate (rnd : ℚ → ℚ) (bytes : List UInt8) : ℚ :=
  bytes.foldr (fun b t => rnd (rnd (t * 256) + b.toNat)) 0

/-- `2f64.powi(256) / (t + 1.0)` -/
def attemptsAt (rnd : ℚ → ℚ) (bytes : List UInt8) : ℚ :=
  rnd (2 ^ 256 / rnd (accumulate rnd bytes + 1))

def expectedAttemptsPerWin (rnd : ℚ → ℚ) (target : Bytes32) : ℚ := attemptsAt rnd target.toList

def expectedAttemptsPerMoeWin (rnd : ℚ → ℚ) (moeThreshold : Bytes32 → Except String Bytes32)
    (target : Bytes32) : Except String ℚ :=
  match moeThreshold target with
  | .ok theta => .ok (attemptsAt rnd theta.toList)
  | .error e => .error e

/-- The threshold is `T · 2^16`, where that fits 256 bits. -/
def ThresholdLaw (moeThreshold : Bytes32 → Except String Bytes32) : Prop :=
  ∀ target : Bytes32, target.toNat * 2 ^ 16 < 2 ^ 256 →
    ∃ theta, moeThreshold target = .ok theta ∧ theta.toNat = target.toNat * 2 ^ 16

theorem scaledThreshold_law : ThresholdLaw scaledThreshold := by
  intro target h
  exact ⟨_, if_pos h, Kit.Block.toNat_ofNat (lt_of_lt_of_eq h (by norm_num))⟩

/-- `AI_ATTEMPTS_MIN` -/
def aiAttemptsMin : Nat := 2 ^ 12

/-- `AI_ATTEMPTS_MAX` -/
def aiAttemptsMax : Nat := 2 ^ 30

def clamp (n lo hi : Nat) : Nat := if n < lo then lo else if hi < n then hi else n

def grantAttempts (requested : Nat) : Nat :=
  let n := clamp requested aiAttemptsMin aiAttemptsMax
  if n = 2 ^ n.log2 then n
  else
    let lo := 2 ^ n.log2
    let hi := 2 * lo
    if lo * hi ≤ n * n then hi else lo

/-- The little-endian target `2^bit`. -/
def pow2Target (bit : Nat) : Option Bytes32 :=
  if 256 ≤ bit then none
  else some ⟨(List.replicate 32 0).set (bit / 8) (UInt8.ofNat (2 ^ (bit % 8))), by simp⟩

def targetForAttempts (attempts : Nat) (expected : Bytes32 → ℚ) : Option Bytes32 :=
  if attempts ≠ grantAttempts attempts then none
  else
    (List.range 256).findSome? fun bit =>
      match pow2Target bit with
      | some t => if expected t = attempts then some t else none
      | none => none

/-! ### Granted tiers -/

theorem clamp_mem {n lo hi : Nat} (h : lo ≤ hi) : lo ≤ clamp n lo hi ∧ clamp n lo hi ≤ hi := by
  unfold clamp
  split
  · exact ⟨le_refl _, h⟩
  · split <;> omega

theorem grantAttempts_pow {a : Nat} (h1 : 12 ≤ a) (h2 : a ≤ 30) :
    grantAttempts (2 ^ a) = 2 ^ a := by
  have hlo : aiAttemptsMin ≤ 2 ^ a := Nat.pow_le_pow_right (by omega) h1
  have hhi : 2 ^ a ≤ aiAttemptsMax := Nat.pow_le_pow_right (by omega) h2
  have hc : clamp (2 ^ a) aiAttemptsMin aiAttemptsMax = 2 ^ a := by
    rw [clamp, if_neg (by omega), if_neg (by omega)]
  simp only [grantAttempts, hc, Nat.log2_two_pow, if_true]

theorem grantAttempts_eq_pow (n : Nat) : ∃ a, 12 ≤ a ∧ a ≤ 30 ∧ grantAttempts n = 2 ^ a := by
  obtain ⟨hlo, hhi⟩ := clamp_mem (n := n) (show aiAttemptsMin ≤ aiAttemptsMax by decide)
  unfold grantAttempts
  generalize clamp n aiAttemptsMin aiAttemptsMax = m at hlo hhi ⊢
  have hm : m ≠ 0 := by unfold aiAttemptsMin at hlo; omega
  have hle := Nat.log2_self_le hm
  have hlt := Nat.lt_log2_self (n := m)
  have h12 : 12 ≤ m.log2 := (Nat.le_log2 hm).mpr hlo
  have h30 : m.log2 ≤ 30 := by
    by_contra hc
    have := Nat.pow_le_pow_right (n := 2) (by omega) (show 31 ≤ m.log2 by omega)
    unfold aiAttemptsMax at hhi
    omega
  by_cases hp : m = 2 ^ m.log2
  · simp only [if_pos hp]
    exact ⟨m.log2, h12, h30, hp⟩
  · simp only [if_neg hp]
    split
    · -- not a power itself, so below the ceiling, and the next power is in range
      refine ⟨m.log2 + 1, by omega, ?_, by rw [pow_succ, Nat.mul_comm]⟩
      by_contra hc
      have h : m.log2 = 30 := by omega
      rw [h] at hle hp
      unfold aiAttemptsMax at hhi
      omega
    · exact ⟨m.log2, h12, h30, rfl⟩

theorem grantAttempts_idem (n : Nat) : grantAttempts (grantAttempts n) = grantAttempts n := by
  obtain ⟨a, h1, h2, h⟩ := grantAttempts_eq_pow n
  rw [h, grantAttempts_pow h1 h2]

/-- Rounding to the nearest power in log space puts the border at `2^c / √2`. -/
theorem grantAttempts_lt_iff {n c : Nat} (h1 : 12 < c) (h2 : c ≤ 30) :
    grantAttempts n < 2 ^ c ↔ 2 * n ^ 2 < 2 ^ (2 * c) := by
  have hpow : ∀ {a b : Nat}, a ≤ b → 2 ^ a ≤ 2 ^ b := Nat.pow_le_pow_right (by omega)
  by_cases hlow : n < aiAttemptsMin
  · -- clamped up to the floor
    have hg : grantAttempts n = 2 ^ 12 := by
      simp only [grantAttempts, clamp, if_pos hlow]
      rfl
    have hn : n ^ 2 < (2 ^ 12) ^ 2 := Nat.pow_lt_pow_left hlow (by omega)
    have hc : 2 ^ (2 * 13) ≤ 2 ^ (2 * c) := hpow (by omega)
    rw [hg]
    exact ⟨fun _ => by omega, fun _ => Nat.pow_lt_pow_right (by omega) h1⟩
  by_cases hhigh : aiAttemptsMax < n
  · -- clamped down to the ceiling
    have hg : grantAttempts n = 2 ^ 30 := by
      simp only [grantAttempts, clamp, if_neg hlow, if_pos hhigh]
      rfl
    have hn : (2 ^ 30) ^ 2 < n ^ 2 := Nat.pow_lt_pow_left hhigh (by omega)
    have hc : 2 ^ (2 * c) ≤ 2 ^ (2 * 30) := hpow (by omega)
    rw [hg]
    exact ⟨fun h => absurd h (Nat.not_lt.mpr (hpow h2)), fun h => by omega⟩
  have hm : n ≠ 0 := by unfold aiAttemptsMin at hlow; omega
  have hle := Nat.log2_self_le hm
  have hlt := Nat.lt_log2_self (n := n)
  have hsq : (2 ^ n.log2) ^ 2 ≤ n ^ 2 := Nat.pow_le_pow_left hle 2
  have hsq' : n ^ 2 < (2 ^ (n.log2 + 1)) ^ 2 := Nat.pow_lt_pow_left hlt (by omega)
  unfold grantAttempts
  simp only [clamp, if_neg hlow, if_neg hhigh]
  generalize n.log2 = m at *
  have e1 : 2 ^ (2 * m + 1) = 2 ^ m * (2 * 2 ^ m) := by ring
  have e2 : 2 * (2 ^ m) ^ 2 = 2 ^ (2 * m + 1) := by ring
  have e3 : 2 * (2 ^ (m + 1)) ^ 2 = 2 ^ (2 * m + 3) := by ring
  have e4 : 2 * 2 ^ (2 * m + 1) = 2 ^ (2 * m + 2) := by ring
  have hbelow : ∀ {a b : Nat}, 2 ^ a < 2 ^ b ↔ a < b := Nat.pow_lt_pow_iff_right (by omega)
  by_cases hp : n = 2 ^ m
  · rw [if_pos hp, hp, e2, hbelow, hbelow]
    omega
  rw [if_neg hp]
  split
  · -- rounded up
    rename_i hup
    rw [show 2 * 2 ^ m = 2 ^ (m + 1) by ring, hbelow]
    constructor
    · intro h
      have : 2 ^ (2 * m + 3) ≤ 2 ^ (2 * c) := hpow (by omega)
      omega
    · intro h
      rw [← e1, ← pow_two] at hup
      have : 2 ^ (2 * m + 2) < 2 ^ (2 * c) := by omega
      have := hbelow.mp this
      omega
  · rename_i hdown
    rw [hbelow]
    constructor
    · intro h
      rw [← e1, ← pow_two] at hdown
      have : 2 ^ (2 * m + 2) ≤ 2 ^ (2 * c) := hpow (by omega)
      omega
    · intro h
      have : 2 ^ (2 * m + 1) < 2 ^ (2 * c) := by omega
      have := hbelow.mp this
      omega

/-! ### Single-bit targets -/

theorem pow2Target_toList {bit : Nat} {t : Bytes32} (h : pow2Target bit = some t) :
    bit < 256 ∧ t.toList = List.replicate (bit / 8) 0 ++
      UInt8.ofNat (2 ^ (bit % 8)) :: List.replicate (31 - bit / 8) 0 := by
  unfold pow2Target at h
  split at h
  · cases h
  · cases h
    refine ⟨by omega, ?_⟩
    simp only
    rw [List.set_eq_take_append_cons_drop, if_pos (by rw [List.length_replicate]; omega),
      List.take_replicate, List.drop_replicate]
    congr 2
    · omega
    · congr 1; omega

theorem pow2Byte_toNat (bit : Nat) : (UInt8.ofNat (2 ^ (bit % 8))).toNat = 2 ^ (bit % 8) := by
  have : 2 ^ (bit % 8) ≤ 2 ^ 7 := Nat.pow_le_pow_right (by omega) (by omega)
  rw [UInt8.toNat_ofNat', Nat.mod_eq_of_lt (by omega)]

theorem pow2Target_toNat {bit : Nat} {t : Bytes32} (h : pow2Target bit = some t) :
    t.toNat = 2 ^ bit := by
  obtain ⟨-, hl⟩ := pow2Target_toList h
  rw [Kit.Block.toNat, hl, Kit.leNat_append, Kit.leNat_replicate_zero, Kit.leNat,
    Kit.leNat_replicate_zero, pow2Byte_toNat, List.length_replicate,
    show 256 = 2 ^ 8 from rfl, ← pow_mul, Nat.zero_add, Nat.mul_zero, Nat.add_zero, ← pow_add,
    Nat.div_add_mod]

theorem pow2Target_of_lt {bit : Nat} (h : bit < 256) : ∃ t, pow2Target bit = some t :=
  ⟨_, if_neg (by omega)⟩

theorem accumulate_append (rnd : ℚ → ℚ) (as bs : List UInt8) :
    accumulate rnd (as ++ bs) =
      as.foldr (fun b t => rnd (rnd (t * 256) + b.toNat)) (accumulate rnd bs) := by
  rw [accumulate, List.foldr_append]
  rfl

theorem accumulate_zeros (n : Nat) : accumulate binary64 (List.replicate n 0) = 0 := by
  induction n with
  | zero => rfl
  | succ n ih =>
    rw [List.replicate_succ, accumulate, List.foldr_cons]
    show binary64 (binary64 (accumulate binary64 (List.replicate n 0) * 256) + _) = 0
    rw [ih, zero_mul, binary64_zero]
    simp [binary64_zero]

theorem foldr_zeros_pow (n m : Nat) :
    (List.replicate n (0 : UInt8)).foldr (fun b t => binary64 (binary64 (t * 256) + b.toNat))
      ((2 : ℚ) ^ m) = (2 : ℚ) ^ (m + 8 * n) := by
  induction n with
  | zero => simp
  | succ n ih =>
    rw [List.replicate_succ, List.foldr_cons, ih]
    have h256 : (2 : ℚ) ^ (m + 8 * n) * 256 = (2 : ℚ) ^ (m + 8 * (n + 1)) := by
      rw [show m + 8 * (n + 1) = m + 8 * n + 8 by ring, pow_add _ (m + 8 * n) 8]
      norm_num
    rw [h256, binary64_pow]
    simp [binary64_pow]

/-- A single-bit target is exact in f64. -/
theorem accumulate_pow2Target {bit : Nat} {t : Bytes32} (h : pow2Target bit = some t) :
    accumulate binary64 t.toList = (2 : ℚ) ^ bit := by
  obtain ⟨-, hl⟩ := pow2Target_toList h
  have hbyte : accumulate binary64
      (UInt8.ofNat (2 ^ (bit % 8)) :: List.replicate (31 - bit / 8) 0) = (2 : ℚ) ^ (bit % 8) := by
    rw [accumulate, List.foldr_cons]
    show binary64 (binary64 (accumulate binary64 (List.replicate _ 0) * 256) + _) = _
    rw [accumulate_zeros, zero_mul, binary64_zero, zero_add, pow2Byte_toNat, Nat.cast_pow,
      Nat.cast_ofNat, binary64_pow]
  rw [hl, accumulate_append, hbyte, foldr_zeros_pow, Nat.mod_add_div]

theorem attemptsAt_pow2Target {bit : Nat} (h53 : 53 ≤ bit) {t : Bytes32}
    (h : pow2Target bit = some t) : attemptsAt binary64 t.toList = (2 : ℚ) ^ (256 - bit) := by
  have hlt := (pow2Target_toList h).1
  have hdiv : (2 : ℚ) ^ 256 / (2 : ℚ) ^ bit = (2 : ℚ) ^ (256 - bit) := by
    rw [div_eq_iff (by positivity), ← pow_add]
    congr 1
    omega
  rw [attemptsAt, accumulate_pow2Target h, binary64_pow_add_one h53, hdiv, binary64_pow]

/-- A tier has a target as soon as one bit scores it. -/
theorem targetForAttempts_isSome {a bit : Nat} {expected : Bytes32 → ℚ} {t : Bytes32}
    (h1 : 12 ≤ a) (h2 : a ≤ 30) (ht : pow2Target bit = some t)
    (he : expected t = (2 : ℚ) ^ a) : (targetForAttempts (2 ^ a) expected).isSome := by
  have hlt := (pow2Target_toList ht).1
  rw [targetForAttempts, if_neg (by rw [grantAttempts_pow h1 h2]; simp), List.isSome_findSome?]
  apply List.any_eq_true.mpr
  refine ⟨bit, List.mem_range.mpr hlt, ?_⟩
  simp only [ht]
  rw [if_pos (by rw [he]; push_cast; rfl)]
  rfl

theorem targetForAttempts_dense {a : Nat} (h1 : 12 ≤ a) (h2 : a ≤ 30) :
    (targetForAttempts (2 ^ a) (expectedAttemptsPerWin binary64)).isSome := by
  obtain ⟨t, ht⟩ := pow2Target_of_lt (show 256 - a < 256 by omega)
  refine targetForAttempts_isSome h1 h2 ht ?_
  rw [expectedAttemptsPerWin, attemptsAt_pow2Target (by omega) ht]
  congr 1
  omega

theorem expectedAttemptsPerMoeWin_pow2Target {moeThreshold : Bytes32 → Except String Bytes32}
    (hlaw : ThresholdLaw moeThreshold) {bit : Nat} (h53 : 53 ≤ bit) (hlt : bit + 16 < 256)
    {t : Bytes32} (ht : pow2Target bit = some t) :
    expectedAttemptsPerMoeWin binary64 moeThreshold t = .ok ((2 : ℚ) ^ (240 - bit)) := by
  have hn := pow2Target_toNat ht
  obtain ⟨theta, hok, htheta⟩ := hlaw t (by
    rw [hn, ← pow_add]; exact Nat.pow_lt_pow_right (by omega) hlt)
  obtain ⟨t', ht'⟩ := pow2Target_of_lt hlt
  -- the scaled threshold is the single-bit target sixteen places up
  have heq : theta = t' := by
    apply Kit.Block.toNat_injective
    rw [htheta, hn, pow2Target_toNat ht', pow_add]
  rw [expectedAttemptsPerMoeWin, hok]
  simp only
  rw [heq, attemptsAt_pow2Target (by omega) ht']
  congr 2
  omega

theorem targetForAttempts_moe {moeThreshold : Bytes32 → Except String Bytes32}
    (hlaw : ThresholdLaw moeThreshold) {a : Nat} (h1 : 12 ≤ a) (h2 : a ≤ 30) {fallback : ℚ} :
    (targetForAttempts (2 ^ a) fun t =>
      (expectedAttemptsPerMoeWin binary64 moeThreshold t).toOption.getD fallback).isSome := by
  obtain ⟨t, ht⟩ := pow2Target_of_lt (show 240 - a < 256 by omega)
  refine targetForAttempts_isSome h1 h2 ht ?_
  simp only [expectedAttemptsPerMoeWin_pow2Target hlaw (by omega : 53 ≤ 240 - a) (by omega) ht]
  show (2 : ℚ) ^ (240 - (240 - a)) = _
  congr 1
  omega

end Tock
end Nockmark
