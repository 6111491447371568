import Nockmark.Registry.HonestAi
import Nockmark.Registry.TierRate

/-!
# Registry.Workload

A local `tock ai-bench` and a submitted one measure the same workload.

The tier is settled before a challenge exists (`resolve_tier` in `tock/src/main.rs`): by a flag, or
by what the host measures of itself. A local run grinds the target that the client derives for the
tier; a submitted one asks the registry for the tier, and grinds the target that comes back.

* `resolveTier_granted`: whatever is measured, the tier is one that the registry grants as it is.
* `same_workload`: both runs are at one target, which is credited with just the tier's attempts.
-/

namespace Nockmark
namespace Registry

open Kit.FormUrl (Faithful)
open Tock (AiStatement Backend Bytes32 Calibration ClientJson aiChallengeUrl fetchAiChallenge
  grantAttempts resolve resolveTier)

/-- A run without a target of its own has a tier, which is granted as it is. -/
theorem resolveTier_granted (cal : Calibration) (st : AiStatement) (backend : Backend)
    (attempts : Option UInt64) :
    ∃ t : UInt64, resolveTier cal st backend attempts false = some t.toNat ∧
      grantAttempts t.toNat = t.toNat := by
  obtain ⟨n, hn⟩ : ∃ n, resolveTier cal st backend attempts false = some (grantAttempts n) := by
    cases attempts with
    | none => exact ⟨_, rfl⟩
    | some requested => exact ⟨_, rfl⟩
  have hlt : grantAttempts n < 2 ^ 64 := by
    obtain ⟨a, -, ha, hpow⟩ := Tock.grantAttempts_eq_pow n
    rw [hpow]
    exact Nat.pow_lt_pow_right (by omega) (by omega)
  refine ⟨UInt64.ofNat (grantAttempts n), ?_, ?_⟩
  · rw [UInt64.toNat_ofNat_of_lt' hlt]
    exact hn
  · rw [UInt64.toNat_ofNat_of_lt' hlt]
    exact Tock.grantAttempts_idem n

/-- For either statement, every `--attempts` or measurement of the host, and every server: the run
has a tier. Its target, which a local run grinds, is the one that the registry hands out to a client
that asks for this tier, and each win at it is credited with exactly the tier's attempts. -/
theorem same_workload {lossy : List UInt8 → String} (hlossy : Faithful lossy) {base : String}
    (hbase : BaseUrl base) {env : AiEnv} (hlaw : Tock.ThresholdLaw env.moeThreshold)
    {J : SerdeJson} {json : ClientJson} (hread : Reads json J) (statusText : ℕ → String)
    (cal : Calibration) (st : AiStatement) (backend : Backend) (attempts : Option UInt64)
    (devChallenge loosest : Bytes32) :
    let targetFor := st.targetForAttempts Kit.Round.binary64 env.moeThreshold
    let workload := resolve devChallenge loosest targetFor
    ∃ (t : UInt64) (target : Bytes32),
      resolveTier cal st backend attempts false = some t.toNat ∧
      (ofClient st).expectedAttemptsPerWin Kit.Round.binary64 env.moeThreshold target = t.toNat ∧
      (∀ challenge k w, workload ⟨challenge, none, some t.toNat, k⟩ none = .ok w →
        w.2 = (target, k)) ∧
      (∀ k, workload ⟨none, none, some t.toNat, k⟩ none = .ok (devChallenge, target, k)) ∧
      validateChallenge env (queryOf lossy (aiChallengeUrl base st (some t))) =
        .ok (ofClient st, some ⟨t.toNat, target⟩) ∧
      ∀ cfg nonce flags, ∃ rc,
        fetchAiChallenge json (fun _ => .ok (responseOf J statusText
          (aiChallengeReply env cfg (ofClient st) nonce (some ⟨t.toNat, target⟩)))) base st
          (some t) = .ok rc ∧
        rc.attempts = some t ∧
        workload flags (some rc) = .ok (challenge32 env.blake3 nonce, target, cfg.aiK) := by
  intro targetFor workload
  obtain ⟨t, ht, hgranted⟩ := resolveTier_granted cal st backend attempts
  obtain ⟨hq, hs, ha⟩ := query_aiChallengeUrl hlossy hbase st (some t) env.debug
  obtain ⟨tier, hv, hattempts, htier⟩ := validateChallenge_asked hlaw hq hs ha
  cases tier with
  | none => cases hattempts
  | some tier =>
    obtain ⟨n, target⟩ := tier
    obtain rfl : n = t.toNat := (Option.some.inj hattempts).trans hgranted
    obtain ⟨-, htarget⟩ := htier _ rfl
    have hfor : targetFor t.toNat = some target := by
      rw [← htarget]
      exact (targetForAttempts_ofClient _ _ st _).symm
    refine ⟨t, target, ht, (targetForAttempts_eq_some htarget).2, ?_, ?_, hv, ?_⟩
    · intro challenge k w hw
      cases challenge with
      | none =>
        simp only [workload, resolve, Option.bind_some, hfor, Option.getD_some] at hw
        cases hw
        rfl
      | some hex =>
        cases hch : Tock.hexArg "bad --challenge" hex with
        | error e =>
          simp only [workload, resolve, hch] at hw
          cases hw
        | ok ch =>
          simp only [workload, resolve, hch, Option.bind_some, hfor, Option.getD_some] at hw
          cases hw
          rfl
    · intro k
      simp only [workload, resolve, Option.bind_some, hfor, Option.getD_some]
      rfl
    · intro cfg nonce flags
      refine ⟨_, (fetch_reply hread statusText base st (some t) _ nonce _
        (fromValue_aiChallengeReply ?_)).trans (checkChallenge_same st nonce _), ?_, ?_⟩
      · intro tier' heq
        cases heq
        exact t.toNat_lt
      · show some (UInt64.ofNat t.toNat) = some t
        rw [UInt64.ofNat_toNat]
      · exact resolve_challengeOf devChallenge loosest targetFor flags cfg _ nonce _

/-- A host that measures 20000 attempts per second, and seven seconds for a certificate. -/
def sevenSeconds : Calibration := ⟨fun _ _ => 20000, fun _ => 7⟩

theorem same_workload_sevenSeconds : ∃ target,
    resolve (.fill 32 0) Tock.maxMoeTarget (AiStatement.canonicalMoe.targetForAttempts
      Kit.Round.binary64 strict.moeThreshold) ⟨none, none, some (2 ^ 18), 4⟩ none =
        .ok (.fill 32 0, target, 4) ∧
    validateChallenge strict (queryOf lossyUtf8 (aiChallengeUrl "https://registry.example/"
      .canonicalMoe (some (2 ^ 18)))) = .ok (.canonicalMoe, some ⟨2 ^ 18, target⟩) := by
  have hbase : BaseUrl "https://registry.example/" := by
    constructor <;> simp
  obtain ⟨t, target, ht, -, -, hlocal, hasked, -⟩ := @same_workload _ lossyUtf8_faithful _ hbase
    strict Tock.scaledThreshold_law _ _ compactJson_reads (fun _ => "200 OK") sevenSeconds
    .canonicalMoe .cpu none (.fill 32 0) Tock.maxMoeTarget
  have htier : resolveTier sevenSeconds .canonicalMoe .cpu none false = some (2 ^ 18) := by
    decide +kernel
  have h18 : t = 2 ^ 18 := UInt64.toNat_inj.mp (Option.some.inj (ht.symm.trans htier))
  subst h18
  exact ⟨target, hlocal 4, hasked⟩

end Registry
end Nockmark
