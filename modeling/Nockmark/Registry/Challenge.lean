import Nockmark.Registry.AiSubmit
import Nockmark.Tock.Nonce

/-!
# Registry.Challenge

What `new_challenge` (`registry/src/http.rs`) derives before it mints, and what it replies.

A tier's target is a function of the statement and the granted attempts alone, so all of it can
fail only before a nonce exists; `tierFor_isOk` says that it never does.

* `validateChallenge_tier`: a request with a statement and a tier that parse goes on to the mint.
* `validateChallenge_bad`: one with either of them malformed does not.
-/

namespace Nockmark
namespace Registry

open Kit.Json (Value Members)
open Tock (Bytes32 hex32)

/-- A granted tier and the target that realizes it. -/
structure Tier where
  attempts : Nat
  target : Bytes32
  deriving DecidableEq

def tierFor (env : AiEnv) (s : Statement) (requested : UInt64) : Except Reply Tier :=
  let granted := Tock.grantAttempts requested.toNat
  match s.targetForAttempts Kit.Round.binary64 env.moeThreshold granted with
  | some target => .ok ⟨granted, target⟩
  | none =>
    .error (bad
      s!"no {s.asStr} target for a tier of {Kit.dec granted} expected attempts per win")

/-- The statement and the tier of a request. The ZK track ignores both parameters. -/
def validateChallenge (env : AiEnv) (q : Query) : Except Reply (Statement × Option Tier) :=
  if isAiTrack q then
    match statementFromQuery env.debug q with
    | .error e => .error (bad e)
    | .ok statement =>
      match attemptsFromQuery q with
      | .error e => .error (bad e)
      | .ok none => .ok (statement, none)
      | .ok (some n) =>
        match tierFor env statement n with
        | .error r => .error r
        | .ok tier => .ok (statement, some tier)
  else .ok (.dense, none)

/-- What the operator configures. `k_from_env` takes no `k` below one. -/
structure Config where
  k : UInt64
  aiK : UInt64
  aiK_ne_zero : aiK ≠ 0
  aiTarget : Bytes32
  aiMoeTarget : Bytes32

/-- A registry that asks for `k` ZK proofs. -/
def zkConfig (k : UInt64) : Config := ⟨k, 1, by decide, .fill 32 0xff, .fill 32 0xff⟩

def Config.target (cfg : Config) : Statement → Bytes32
  | .dense => cfg.aiTarget
  | .canonicalMoe => cfg.aiMoeTarget

/-- `AI_PARAMS` and `AI_MOE_PARAMS`, with the expert routing. -/
def Statement.params : Statement → Value
  | .dense => .obj (.ofList [("m", .num 8), ("k", .num 1024), ("n", .num 8),
      ("noise_rank", .num 64), ("tile", .num 8)])
  | .canonicalMoe => .obj (.ofList [("m", .num 64), ("k", .num 1024), ("n", .num 64),
      ("noise_rank", .num 64), ("tile", .num 8), ("hw", .num 8), ("e", .num 2), ("top_k", .num 1),
      ("shape_work_factor", .num 65536), ("target_is_scaled_by_shape_work_factor", .bool true)])

def aiChallengeReply (env : AiEnv) (cfg : Config) (s : Statement) (nonce : UInt64)
    (tier : Option Tier) : Reply :=
  let target := (tier.map Tier.target).getD (cfg.target s)
  let body := Members.ofList
    [("nonce", .str (u64String nonce)),
      ("challenge", .str (hex32 (challenge32 env.blake3 nonce))), ("target", .str (hex32 target)),
      ("k", u64 cfg.aiK), ("statement", .str s.asStr), ("params", s.params),
      ("nonce_rule", .str s.nonceRule)]
  match tier with
  | some t => .ok (.obj (body.insert "attempts" (.num t.attempts)))
  | none => .ok (.obj body)

def zkChallengeReply (cfg : Config) (nonce : UInt64) : Reply :=
  .ok (.obj (.ofList [("nonce", .str (u64String nonce)), ("pow_len", .num 64), ("k", u64 cfg.k),
    ("nonce_rule", .str Tock.nonceRule)]))

/-- The tier that a statement and a request lead to. -/
def IsTierOf (env : AiEnv) (s : Statement) (requested : UInt64) (tier : Tier) : Prop :=
  tier.attempts = Tock.grantAttempts requested.toNat ∧
    s.targetForAttempts Kit.Round.binary64 env.moeThreshold tier.attempts = some tier.target

theorem tierFor_eq_ok {env : AiEnv} {s : Statement} {requested : UInt64} {tier : Tier}
    (h : tierFor env s requested = .ok tier) : IsTierOf env s requested tier := by
  simp only [tierFor] at h
  split at h
  · rename_i target ht; cases h; exact ⟨rfl, ht⟩
  · cases h

theorem tierFor_isOk {env : AiEnv} (hlaw : Tock.ThresholdLaw env.moeThreshold) (s : Statement)
    (requested : UInt64) : ∃ tier, tierFor env s requested = .ok tier := by
  have h := s.targetForAttempts_granted hlaw requested.toNat
  obtain ⟨target, ht⟩ := Option.isSome_iff_exists.mp h
  exact ⟨_, by simp only [tierFor, ht]; rfl⟩

theorem validateChallenge_tier {env : AiEnv} (hlaw : Tock.ThresholdLaw env.moeThreshold) {q : Query}
    (hq : isAiTrack q = true) {s : Statement} (hs : statementFromQuery env.debug q = .ok s)
    {requested : UInt64} (ha : attemptsFromQuery q = .ok (some requested)) :
    ∃ tier, validateChallenge env q = .ok (s, some tier) ∧ IsTierOf env s requested tier := by
  obtain ⟨tier, ht⟩ := tierFor_isOk hlaw s requested
  refine ⟨tier, ?_, tierFor_eq_ok ht⟩
  rw [validateChallenge, if_pos hq, hs]
  simp only [ha, ht]

theorem validateChallenge_eq_ok {env : AiEnv} {q : Query} (hq : isAiTrack q = true) {s : Statement}
    {tier : Option Tier} (h : validateChallenge env q = .ok (s, tier)) {requested : UInt64}
    (ha : attemptsFromQuery q = .ok (some requested)) :
    statementFromQuery env.debug q = .ok s ∧
      ∃ t, tier = some t ∧ IsTierOf env s requested t := by
  rw [validateChallenge, if_pos hq] at h
  split at h
  · cases h
  rename_i s' hs
  simp only [ha] at h
  split at h
  · cases h
  rename_i t ht
  cases h
  exact ⟨hs, t, rfl, tierFor_eq_ok ht⟩

theorem validateChallenge_bad {env : AiEnv} {q : Query} (hq : isAiTrack q = true) {e : String}
    (h : statementFromQuery env.debug q = .error e ∨ attemptsFromQuery q = .error e) :
    ∃ e', validateChallenge env q = .error (bad e') := by
  rw [validateChallenge, if_pos hq]
  cases hs : statementFromQuery env.debug q with
  | error e' => exact ⟨e', rfl⟩
  | ok s =>
    rcases h with h | h
    · rw [hs] at h; cases h
    · simp only [h]; exact ⟨e, rfl⟩

end Registry
end Nockmark
