import Mathlib.Data.Set.Card
import Mathlib.Tactic.FieldSimp
import Nockmark.Registry.Aipow

/-!
# Registry.Score

What a win is credited with, against how likely it is.

A win is a hash at or below the threshold, both read as little-endian numbers. Of the `2^256`
hashes, the threshold's value plus one are wins, and the credit is the reciprocal of that share,
in exact arithmetic.

* `attemptsAt_id`: the byte loop computes the value that the comparison reads.
* `ncard_wins`: the winning hashes are counted by the threshold's value.
* `score_is_reciprocal`: the two, under either statement.
-/

namespace Nockmark
namespace Registry

open Tock (Bytes32 hashLeTarget)

/-- `canonical_grind_threshold`: `T · 2^16`, or an error where that overflows. -/
def CanonicalThreshold (moeThreshold : Bytes32 → Except String Bytes32) : Prop :=
  ∀ target : Bytes32,
    (target.toNat * 2 ^ 16 < 2 ^ 256 →
      ∃ theta, moeThreshold target = .ok theta ∧ theta.toNat = target.toNat * 2 ^ 16) ∧
    (2 ^ 256 ≤ target.toNat * 2 ^ 16 → ∃ e, moeThreshold target = .error e)

theorem scaledThreshold_canonical : CanonicalThreshold Tock.scaledThreshold := fun target =>
  ⟨Tock.scaledThreshold_law target, fun h => ⟨_, if_neg (Nat.not_lt.mpr h)⟩⟩

/-- The hashes that win against a threshold. -/
def winners (threshold : Bytes32) : Set Bytes32 := {hash | hashLeTarget hash threshold}

theorem mem_winners {hash threshold : Bytes32} :
    hash ∈ winners threshold ↔ hash.toNat ≤ threshold.toNat := decide_eq_true_iff

/-- The loop from the last byte computes the little-endian value. -/
theorem accumulate_id (bytes : List UInt8) : Tock.accumulate id bytes = Kit.leNat bytes := by
  induction bytes with
  | nil => rfl
  | cons b bs ih =>
    show Tock.accumulate id bs * 256 + (b.toNat : ℚ) = _
    rw [ih, Kit.leNat]
    push_cast
    ring

theorem attemptsAt_id (threshold : Bytes32) :
    Tock.attemptsAt id threshold.toList = 2 ^ 256 / (threshold.toNat + 1) := by
  rw [Tock.attemptsAt, accumulate_id]
  rfl

/-- Values below `2^256` are values of hashes, each of one. -/
theorem ncard_wins (threshold : Bytes32) : (winners threshold).ncard = threshold.toNat + 1 := by
  have himage : Kit.Block.toNat '' winners threshold = Set.Iic threshold.toNat := by
    ext v
    simp only [Set.mem_image, mem_winners, Set.mem_Iic]
    constructor
    · rintro ⟨hash, hle, rfl⟩
      exact hle
    · intro hle
      have hv : v < 256 ^ 32 := lt_of_le_of_lt hle threshold.toNat_lt
      exact ⟨.ofNat 32 v, by rw [Kit.Block.toNat_ofNat hv]; exact hle, Kit.Block.toNat_ofNat hv⟩
  rw [← Set.ncard_image_of_injective _ Kit.Block.toNat_injective, himage,
    Set.ncard_eq_toFinset_card', Set.toFinset_Iic, Nat.card_Iic]

/-- Credit times chance. -/
theorem attemptsAt_mul_wins (threshold : Bytes32) :
    Tock.attemptsAt id threshold.toList * (winners threshold).ncard = 2 ^ 256 := by
  rw [attemptsAt_id, ncard_wins]
  push_cast
  exact div_mul_cancel₀ _ (by positivity)

theorem attemptsAt_anti {a b : Bytes32} (h : a.toNat ≤ b.toNat) :
    Tock.attemptsAt id b.toList ≤ Tock.attemptsAt id a.toList := by
  have hcast : (a.toNat : ℚ) ≤ b.toNat := by exact_mod_cast h
  rw [attemptsAt_id, attemptsAt_id]
  gcongr

/-- No threshold is credited less than the one attempt that every hash wins. -/
theorem one_le_attemptsAt (threshold : Bytes32) : 1 ≤ Tock.attemptsAt id threshold.toList := by
  have hlt : threshold.toNat + 1 ≤ 2 ^ 256 := threshold.toNat_lt
  have hcast : (threshold.toNat : ℚ) + 1 ≤ 2 ^ 256 := by exact_mod_cast hlt
  rw [attemptsAt_id, le_div_iff₀ (by positivity), one_mul]
  exact hcast

section Statement

variable {moeThreshold : Bytes32 → Except String Bytes32}

theorem expected_moe_ok {target theta : Bytes32} (h : moeThreshold target = .ok theta) :
    Statement.canonicalMoe.expectedAttemptsPerWin id moeThreshold target =
      Tock.attemptsAt id theta.toList := by
  rw [Statement.expectedAttemptsPerWin, Tock.expectedAttemptsPerMoeWin, h]
  rfl

theorem expected_moe_error {target : Bytes32} {e : String} (h : moeThreshold target = .error e) :
    Statement.canonicalMoe.expectedAttemptsPerWin id moeThreshold target = 1 := by
  rw [Statement.expectedAttemptsPerWin, Tock.expectedAttemptsPerMoeWin, h]
  rfl

theorem expected_anti (hc : CanonicalThreshold moeThreshold) (s : Statement) {a b : Bytes32}
    (h : a.toNat ≤ b.toNat) : s.expectedAttemptsPerWin id moeThreshold b ≤
      s.expectedAttemptsPerWin id moeThreshold a := by
  cases s with
  | dense => exact attemptsAt_anti h
  | canonicalMoe =>
    by_cases hb : b.toNat * 2 ^ 16 < 2 ^ 256
    · have hmul : a.toNat * 2 ^ 16 ≤ b.toNat * 2 ^ 16 := Nat.mul_le_mul_right _ h
      obtain ⟨thetaA, hokA, hA⟩ := (hc a).1 (lt_of_le_of_lt hmul hb)
      obtain ⟨thetaB, hokB, hB⟩ := (hc b).1 hb
      rw [expected_moe_ok hokA, expected_moe_ok hokB]
      exact attemptsAt_anti (by rw [hA, hB]; exact hmul)
    · obtain ⟨e, he⟩ := (hc b).2 (Nat.not_lt.mp hb)
      rw [expected_moe_error he]
      -- whatever the smaller target is credited, it is one attempt at least
      by_cases ha : a.toNat * 2 ^ 16 < 2 ^ 256
      · obtain ⟨thetaA, hokA, -⟩ := (hc a).1 ha
        rw [expected_moe_ok hokA]
        exact one_le_attemptsAt thetaA
      · obtain ⟨e', he'⟩ := (hc a).2 (Nat.not_lt.mp ha)
        rw [expected_moe_error he']

/-- For every target: its credit times the number of hashes that win against its threshold is
`2^256`, under the raw comparison and, where the target scales, under the scaled one. A target that
does not scale is credited one attempt, and a larger target never more than a smaller one. -/
theorem score_is_reciprocal (hc : CanonicalThreshold moeThreshold) :
    (∀ target, Statement.dense.expectedAttemptsPerWin id moeThreshold target *
      (winners target).ncard = 2 ^ 256) ∧
    (∀ target : Bytes32, target.toNat * 2 ^ 16 < 2 ^ 256 →
      ∃ theta, moeThreshold target = .ok theta ∧ theta.toNat = target.toNat * 2 ^ 16 ∧
        Statement.canonicalMoe.expectedAttemptsPerWin id moeThreshold target *
          (winners theta).ncard = 2 ^ 256) ∧
    (∀ target : Bytes32, 2 ^ 256 ≤ target.toNat * 2 ^ 16 →
      Statement.canonicalMoe.expectedAttemptsPerWin id moeThreshold target = 1) ∧
    ∀ (s : Statement) (a b : Bytes32), a.toNat ≤ b.toNat →
      s.expectedAttemptsPerWin id moeThreshold b ≤
        s.expectedAttemptsPerWin id moeThreshold a := by
  refine ⟨attemptsAt_mul_wins, fun target h => ?_, fun target h => ?_,
    fun s a b => expected_anti hc s⟩
  · obtain ⟨theta, hok, htheta⟩ := (hc target).1 h
    refine ⟨theta, hok, htheta, ?_⟩
    rw [expected_moe_ok hok]
    exact attemptsAt_mul_wins theta
  · obtain ⟨e, he⟩ := (hc target).2 h
    exact expected_moe_error he

end Statement

/-- The calibrated target `2^224` wins once in `2^16` attempts. -/
theorem score_is_reciprocal_calibrated :
    Statement.canonicalMoe.expectedAttemptsPerWin id Tock.scaledThreshold (.ofNat 32 (2 ^ 224)) *
      (winners (.ofNat 32 (2 ^ 240))).ncard = 2 ^ 256 := by
  have htarget : (Kit.Block.ofNat 32 (2 ^ 224)).toNat = 2 ^ 224 :=
    Kit.Block.toNat_ofNat (by norm_num)
  obtain ⟨theta, -, htheta, h⟩ := (score_is_reciprocal scaledThreshold_canonical).2.1
    (.ofNat 32 (2 ^ 224)) (by rw [htarget]; norm_num)
  have heq : theta = .ofNat 32 (2 ^ 240) := by
    apply Kit.Block.toNat_injective
    rw [htheta, htarget, Kit.Block.toNat_ofNat (by norm_num)]
    norm_num
  rwa [heq] at h

end Registry
end Nockmark
