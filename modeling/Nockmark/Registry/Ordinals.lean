import Nockmark.Registry.Challenge

/-!
# Registry.Ordinals

Does a canonical-MoE challenge fit the u32 ordinals of its grind rule?

A run of `k` wins takes `k` times the granted attempts in expectation. The tier is clamped in the
client crate, `k` comes from the registry's environment, and nothing checks their product.

* `OrdinalsSuffice`: the condition on `k` and the request.
* `ordinals_suffice_iff`: exactly then the challenge of a tier can be ground in expectation.
* `five_wins_overflow`: five wins at the highest tier ask for more than `2^32` attempts.
-/

namespace Nockmark
namespace Registry

open Kit.Json (Value)
open Tock (grantAttempts)

/-- The reply's `k` times its `attempts` is below `2^32`. -/
def FitsOrdinals (reply : Reply) : Prop :=
  ∃ k attempts, reply.body.index "k" = .num k ∧ reply.body.index "attempts" = .num attempts ∧
    k * attempts < 2 ^ 32

/-- Fewer than four wins; or fewer than `2^20`, and a request below `2^(32 - ⌊log₂ k⌋) / √2`. -/
def OrdinalsSuffice (k requested : Nat) : Prop :=
  k < 4 ∨ k < 2 ^ 20 ∧ 2 * requested ^ 2 < 2 ^ (2 * (32 - k.log2))

theorem mul_pow_lt_iff {k a : Nat} (hk : k ≠ 0) : k * 2 ^ a < 2 ^ 32 ↔ a + k.log2 < 32 := by
  have hle := Nat.log2_self_le hk
  have hlt := Nat.lt_log2_self (n := k)
  constructor
  · intro h
    have hmul : 2 ^ (a + k.log2) ≤ k * 2 ^ a := by
      rw [Nat.add_comm, pow_add]
      exact Nat.mul_le_mul_right _ hle
    exact (Nat.pow_lt_pow_iff_right (by omega)).mp (lt_of_le_of_lt hmul h)
  · intro h
    calc k * 2 ^ a < 2 ^ (k.log2 + 1) * 2 ^ a := Nat.mul_lt_mul_of_pos_right hlt (Nat.two_pow_pos a)
      _ = 2 ^ (k.log2 + 1 + a) := (pow_add _ _ _).symm
      _ ≤ 2 ^ 32 := Nat.pow_le_pow_right (by omega) (by omega)

theorem mul_grantAttempts_lt_iff {k : Nat} (hk : k ≠ 0) (requested : Nat) :
    k * grantAttempts requested < 2 ^ 32 ↔ OrdinalsSuffice k requested := by
  obtain ⟨a, h1, h2, ha⟩ := Tock.grantAttempts_eq_pow requested
  have hlog : ∀ n, 2 ^ n ≤ k ↔ n ≤ k.log2 := fun n => (Nat.le_log2 hk).symm
  rw [ha, mul_pow_lt_iff hk, OrdinalsSuffice]
  by_cases h4 : k < 4
  · have : ¬ 2 ≤ k.log2 := fun h => absurd ((hlog 2).mpr h) (by omega)
    exact ⟨fun _ => .inl h4, fun _ => by omega⟩
  have hl2 : 2 ≤ k.log2 := (hlog 2).mp (by omega)
  by_cases h20 : k < 2 ^ 20
  · have hl20 : ¬ 20 ≤ k.log2 := fun h => absurd ((hlog 20).mpr h) (by omega)
    have hborder := Tock.grantAttempts_lt_iff (n := requested) (c := 32 - k.log2) (by omega)
      (by omega)
    rw [ha, Nat.pow_lt_pow_iff_right (by omega)] at hborder
    rw [← hborder]
    exact ⟨fun h => .inr ⟨h20, by omega⟩, fun h => by omega⟩
  · have hl20 : 20 ≤ k.log2 := (hlog 20).mp (by omega)
    exact ⟨fun h => by omega, fun h => by omega⟩

theorem fitsOrdinals_iff (env : AiEnv) (cfg : Config) (s : Statement) (nonce : UInt64)
    (tier : Tier) : FitsOrdinals (aiChallengeReply env cfg s nonce (some tier)) ↔
      cfg.aiK.toNat * tier.attempts < 2 ^ 32 := by
  have hk : (aiChallengeReply env cfg s nonce (some tier)).body.index "k" =
      .num cfg.aiK.toNat := by
    simp [aiChallengeReply, Reply.ok, Value.index, Kit.Json.Members.ofList, u64]
  have ha : (aiChallengeReply env cfg s nonce (some tier)).body.index "attempts" =
      .num tier.attempts := by
    simp [aiChallengeReply, Reply.ok, Value.index]
  constructor
  · rintro ⟨k, attempts, hk', ha', h⟩
    rw [hk] at hk'
    rw [ha] at ha'
    cases hk'
    cases ha'
    exact h
  · exact fun h => ⟨_, _, hk, ha, h⟩

/-- For every configuration and every request of a tier: the canonical-MoE challenge that is handed
out fits the u32 ordinals in expectation if and only if `k` and the request are small enough for
each other. -/
theorem ordinals_suffice_iff {env : AiEnv} (hlaw : Tock.ThresholdLaw env.moeThreshold) {q : Query}
    (hq : isAiTrack q = true) (hs : statementFromQuery env.debug q = .ok .canonicalMoe)
    {requested : UInt64} (ha : attemptsFromQuery q = .ok (some requested)) (cfg : Config)
    (nonce : UInt64) :
    ∃ tier, validateChallenge env q = .ok (.canonicalMoe, some tier) ∧
      (FitsOrdinals (aiChallengeReply env cfg .canonicalMoe nonce (some tier)) ↔
        OrdinalsSuffice cfg.aiK.toNat requested.toNat) := by
  obtain ⟨tier, hv, hattempts, -⟩ := validateChallenge_tier hlaw hq hs ha
  refine ⟨tier, hv, ?_⟩
  rw [fitsOrdinals_iff, hattempts]
  exact mul_grantAttempts_lt_iff (fun h0 => cfg.aiK_ne_zero (UInt64.toNat_inj.mp h0)) _

/-- `?track=ai&statement=canonical-moe&attempts=` -/
def moeQuery (attempts : String) : Query
  | "track" => some "ai"
  | "statement" => some "canonical-moe"
  | "attempts" => some attempts
  | _ => none

def winsConfig (k : UInt64) (h : k ≠ 0) : Config := ⟨8, k, h, .fill 32 0xff, .fill 32 0xff⟩

theorem ordinals_suffice_iff_half :
    ∃ tier, validateChallenge strict (moeQuery "536870912") = .ok (.canonicalMoe, some tier) ∧
      FitsOrdinals (aiChallengeReply strict (winsConfig 4 (by decide)) .canonicalMoe 7
        (some tier)) := by
  have ha : attemptsFromQuery (moeQuery "536870912") = .ok (some 536870912) := rfl
  obtain ⟨tier, hv, hiff⟩ := @ordinals_suffice_iff strict Tock.scaledThreshold_law
    (moeQuery "536870912") rfl rfl _ ha (winsConfig 4 (by decide)) 7
  exact ⟨tier, hv, hiff.mpr (.inr (by decide))⟩

/-- Five wins at the highest tier ask for `5 * 2^30` attempts, more than there are ordinals. -/
theorem five_wins_overflow :
    ¬ ∀ (env : AiEnv), Tock.ThresholdLaw env.moeThreshold → ∀ (q : Query) (tier : Tier),
      validateChallenge env q = .ok (.canonicalMoe, some tier) → ∀ (cfg : Config) (nonce : UInt64),
      FitsOrdinals (aiChallengeReply env cfg .canonicalMoe nonce (some tier)) := by
  intro h
  have ha : attemptsFromQuery (moeQuery "1073741824") = .ok (some 1073741824) := rfl
  obtain ⟨tier, hv, hattempts, -⟩ := @validateChallenge_tier strict Tock.scaledThreshold_law
    (moeQuery "1073741824") rfl .canonicalMoe rfl _ ha
  have hfits := h strict Tock.scaledThreshold_law _ tier hv (winsConfig 5 (by decide)) 7
  rw [fitsOrdinals_iff, hattempts] at hfits
  exact absurd hfits (by decide)

end Registry
end Nockmark
