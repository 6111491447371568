import Nockmark.Tock.Tiers

/-!
# Registry.Aipow

The AI track's two statements and the arithmetic of its board figures
(`registry/src/aipow.rs`).

`canonical_grind_threshold` is the parameter `moeThreshold`. Target arithmetic rounds with `rnd`
as in `Tock.Tiers`; the rates above it are exact rationals, and the error bar, a square root that
nothing ranks by, is left out.

* `targetForAttempts_granted`: every granted tier has a target, under either statement.
* `extranonces_nodup`: extranonces in strictly ascending order are distinct.
-/

namespace Nockmark
namespace Registry

open Tock (Bytes32)

inductive Statement where
  | dense
  | canonicalMoe
  deriving DecidableEq

namespace Statement

def asStr : Statement → String
  | .dense => "dense"
  | .canonicalMoe => "canonical-moe"

/-- `debug` is the `{:?}` form of a text. -/
def parse (debug : String → String) (s : String) : Except String Statement :=
  if s = "dense" then .ok .dense
  else if s = "canonical-moe" then .ok .canonicalMoe
  else .error s!"unknown statement {debug s} (expected \"dense\" or \"canonical-moe\")"

def nonceRule : Statement → String
  | .dense => "extranonce-le8-v1"
  | .canonicalMoe => "canonical-ordinal-v3"

def macEquivPerAttempt : Statement → ℚ
  | .dense => 65536
  | .canonicalMoe => 65536

/-- A target that the canonical shape cannot scale counts as one attempt. -/
def expectedAttemptsPerWin (rnd : ℚ → ℚ) (moeThreshold : Bytes32 → Except String Bytes32) :
    Statement → Bytes32 → ℚ
  | .dense, target => Tock.expectedAttemptsPerWin rnd target
  | .canonicalMoe, target =>
    (Tock.expectedAttemptsPerMoeWin rnd moeThreshold target).toOption.getD 1

def targetForAttempts (rnd : ℚ → ℚ) (moeThreshold : Bytes32 → Except String Bytes32)
    (s : Statement) (attempts : Nat) : Option Bytes32 :=
  Tock.targetForAttempts attempts (s.expectedAttemptsPerWin rnd moeThreshold)

theorem parse_asStr (debug : String → String) (s : Statement) : parse debug s.asStr = .ok s := by
  cases s <;> rfl

theorem targetForAttempts_granted {moeThreshold : Bytes32 → Except String Bytes32}
    (hlaw : Tock.ThresholdLaw moeThreshold) (s : Statement) (requested : Nat) :
    (s.targetForAttempts Kit.Round.binary64 moeThreshold
      (Tock.grantAttempts requested)).isSome := by
  obtain ⟨a, h1, h2, h⟩ := Tock.grantAttempts_eq_pow requested
  rw [targetForAttempts, h]
  cases s with
  | dense => exact Tock.targetForAttempts_dense h1 h2
  | canonicalMoe => exact Tock.targetForAttempts_moe hlaw h1 h2

end Statement

/-- `AI_WINDOW_MS` -/
def aiWindowMs : UInt64 := 3600000

/-- `AI_SUBMISSION_BLOB_MAX` -/
def aiSubmissionBlobMax : Nat := 154 * 1024

/-- `AI_MOE_SUBMISSION_BLOB_MAX` -/
def aiMoeSubmissionBlobMax : Nat := 154 * 1024

/-- `challenge32`: the hash of the domain and the nonce as 8 little-endian bytes. -/
def challenge32 (blake3 : List UInt8 → Bytes32) (nonce : UInt64) : Bytes32 :=
  blake3 (Kit.Utf8.encode "nockmark-ai-v1".toList ++ Kit.leBytes 8 nonce.toNat)

/-- `xs.windows(2).all(|w| w[0] < w[1])` -/
def extranoncesStrictlyAscending : List UInt64 → Bool
  | x :: y :: xs => decide (x < y) && extranoncesStrictlyAscending (y :: xs)
  | _ => true

theorem extranonces_pairwise {xs : List UInt64} (h : extranoncesStrictlyAscending xs = true) :
    xs.Pairwise (· < ·) := by
  rw [← List.isChain_iff_pairwise]
  induction xs with
  | nil => exact .nil
  | cons x xs ih =>
    cases xs with
    | nil => exact .singleton _
    | cons y ys =>
      simp only [extranoncesStrictlyAscending, Bool.and_eq_true, decide_eq_true_eq] at h
      exact .cons_cons h.1 (ih h.2)

theorem extranonces_nodup {xs : List UInt64} (h : extranoncesStrictlyAscending xs = true) :
    xs.Nodup :=
  (extranonces_pairwise h).imp fun hlt heq => by rw [heq] at hlt; exact UInt64.lt_irrefl _ hlt

/-! ### Rates -/

/-- Four significant digits. -/
def signif4 (x : ℚ) : ℚ := Kit.Round.signif 3 x

/-- `MAC_EQUIV_PER_ZK_ATTEMPT` -/
def macEquivPerZkAttempt : ℚ := 25750000000

structure AiRates where
  verifiedMacPerSecLb : ℚ
  grindMacPerSec : ℚ
  zkAttemptEquivPerSec : ℚ
  expectedAttemptsPerWin : ℚ

/-- MAC-equivalents per second of a window in milliseconds. -/
def macPerSec (macTotal : ℚ) (windowMs : Nat) : ℚ := macTotal / ((max windowMs 1 : Nat) / 1000)

def rates (rnd : ℚ → ℚ) (moeThreshold : Bytes32 → Except String Bytes32) (statement : Statement)
    (k : Nat) (target : Bytes32) (serverWindowMs grindElapsedMs : Nat) : AiRates :=
  let expected := statement.expectedAttemptsPerWin rnd moeThreshold target
  let macTotal := k * expected * statement.macEquivPerAttempt
  let verified := macPerSec macTotal serverWindowMs
  let grind := macPerSec macTotal grindElapsedMs
  { verifiedMacPerSecLb := signif4 verified
    grindMacPerSec := signif4 grind
    zkAttemptEquivPerSec := signif4 (verified / macEquivPerZkAttempt)
    expectedAttemptsPerWin := expected }

theorem accumulate_nonneg (bytes : List UInt8) : 0 ≤ Tock.accumulate id bytes := by
  induction bytes with
  | nil => exact le_refl _
  | cons b bs ih =>
    show 0 ≤ Tock.accumulate id bs * 256 + (b.toNat : ℚ)
    positivity

theorem attemptsAt_nonneg (bytes : List UInt8) : 0 ≤ Tock.attemptsAt id bytes := by
  have := accumulate_nonneg bytes
  unfold Tock.attemptsAt
  simp only [id_eq]
  positivity

theorem Statement.expectedAttemptsPerWin_nonneg (moeThreshold : Bytes32 → Except String Bytes32)
    (s : Statement) (target : Bytes32) : 0 ≤ s.expectedAttemptsPerWin id moeThreshold target := by
  cases s with
  | dense => exact attemptsAt_nonneg _
  | canonicalMoe =>
    show 0 ≤ (Tock.expectedAttemptsPerMoeWin id moeThreshold target).toOption.getD 1
    unfold Tock.expectedAttemptsPerMoeWin
    split
    · exact attemptsAt_nonneg _
    · exact zero_le_one

end Registry
end Nockmark
