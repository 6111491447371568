import Nockmark.Kernel.Driver
import Nockmark.Registry.Binding
import Nockmark.Registry.Request

/-!
# Registry.Submit

A submission on the ZK track (`submit_run` in `registry/src/http.rs`) and the challenge that its
proofs are bound to.

The request's nonce is parsed for the kernel, and hashed as it is written for the binding check.
So the check binds the proofs to the minted challenge exactly when the spelling hashes like the
decimal the server handed out:

* `SameBelts`: it does. The decimal itself does (`sameBelts_of_canonical`).
* `accepted_proves_iff`: an accepted request proves the minted challenge if and only if so.
* `accepted_other_spelling`: `007`, accepted with proofs of no challenge that was minted.
-/

namespace Nockmark
namespace Registry

open Kit.Json (Value Members)
open Kernel (RegistryState NockAppError)

/-- `DEFAULT_POW_LEN` -/
def defaultPowLen : UInt64 := 64

structure RunSubmission where
  nonce : String
  hardware : String
  proverVersion : String
  elapsedMs : UInt64
  proofs : List String

/-- What a verification of a proof ends with. -/
inductive Verdict where
  | valid
  | invalid
  | error (e : String)
  | joinError (e : String)

/-- The libraries and the verifier that the handler calls, and how it prints their errors. -/
structure ZkEnv where
  base64 : String → Option (List UInt8)
  decode : List UInt8 → Option Proof
  verify : Nat → List UInt8 → Verdict
  nockAppError : NockAppError → String

/-- Decode, bind and verify the proofs from index `i` on; the first failure is the reply. -/
def checkProofs (env : ZkEnv) (nonce : String) : Nat → List String → Except Reply Unit
  | _, [] => .ok ()
  | i, b64 :: proofs =>
    match env.base64 b64 with
    | none => .error (bad s!"proof {Kit.dec i}: invalid base64")
    | some jam =>
      match checkBinding env.decode jam nonce i defaultPowLen with
      | .error e => .error (bad s!"proof {Kit.dec i}: {e.text}")
      | .ok () =>
        match env.verify i jam with
        | .valid => checkProofs env nonce (i + 1) proofs
        | .invalid => .error (bad s!"proof {Kit.dec i}: STARK verification failed")
        | .error e => .error (bad s!"proof {Kit.dec i}: verifier error: {e}")
        | .joinError e => .error (internal s!"proof {Kit.dec i}: verify task failed: {e}")

/-- The checks before the kernel is touched; they leave the parsed nonce. -/
def validate (env : ZkEnv) (k : UInt64) (body : Except String RunSubmission) :
    Except Reply (UInt64 × RunSubmission) :=
  match body with
  | .error e => .error (bad s!"bad submission body: {e}")
  | .ok sub =>
    match parseU64 sub.nonce with
    | .error _ => .error (bad "nonce must be a decimal u64")
    | .ok nonce =>
      if sub.elapsedMs = 0 then .error (bad "elapsed_ms must be greater than zero")
      else if sub.hardware.utf8ByteSize > 128 then
        .error (bad "hardware string too long (max 128 bytes)")
      else if sub.proverVersion.utf8ByteSize > 64 then
        .error (bad "prover_version string too long (max 64 bytes)")
      else if UInt64.ofNat sub.proofs.length ≠ k then
        .error (bad s!"expected {u64String k} proofs, got {Kit.dec sub.proofs.length}")
      else
        match checkProofs env sub.nonce 0 sub.proofs with
        | .error r => .error r
        | .ok () => .ok (nonce, sub)

/-- The reply to what the kernel answered. -/
def answer (env : ZkEnv) : Except NockAppError (Except String Nat) → Reply
  | .ok (.ok id) => .ok (.obj (.ofList [("run_id", .num id)]))
  | .ok (.error reason) => bad reason
  | .error e => internal s!"kernel error: {env.nockAppError e}"

/-- `submit_run` on the ZK track, the kernel poked at `eny` and `now`. `none` is a panic. -/
def submitRun (env : ZkEnv) (k : UInt64) (s : RegistryState) (eny now : Nat)
    (body : Except String RunSubmission) : Option (Reply × RegistryState) :=
  match validate env k body with
  | .error r => some (r, s)
  | .ok (nonce, sub) =>
    (Kernel.submitRun s eny now nonce sub.hardware sub.proverVersion k sub.elapsedMs).map
      fun (a, s') => (answer env a, s')

/-! ### What an accepted request proves -/

/-- Proof `i`, for each `i < k`, is of the puzzle that `challenge` and `i` ask for. -/
def Proves (env : ZkEnv) (proofs : List String) (challenge : String) (k : Nat) : Prop :=
  ∀ i < k, ∃ b64 jam proof, proofs[i]? = some b64 ∧ env.base64 b64 = some jam ∧
    env.decode jam = some proof ∧
    proof.firstPuzzle = some (expectedPuzzle challenge i defaultPowLen)

/-- Two spellings of a challenge ask for the same puzzles. -/
def SameBelts (raw challenge : String) (k : Nat) : Prop :=
  ∀ i < k, expectedPuzzle raw i defaultPowLen = expectedPuzzle challenge i defaultPowLen

instance (raw challenge : String) (k : Nat) : Decidable (SameBelts raw challenge k) := by
  unfold SameBelts; infer_instance

theorem sameBelts_of_canonical {raw : String} {n : UInt64} (h : parseU64 raw = .ok n)
    (hc : Kit.CanonicalNumeral raw) (k : Nat) : SameBelts raw (u64String n) k := by
  rw [(eq_u64String_iff h).mpr hc]
  exact fun _ _ => rfl

theorem checkProofs_eq_ok {env : ZkEnv} {nonce : String} {i : Nat} {proofs : List String}
    {u : Unit} (h : checkProofs env nonce i proofs = .ok u) {j : Nat} (hj : j < proofs.length) :
    ∃ b64 jam proof, proofs[j]? = some b64 ∧ env.base64 b64 = some jam ∧
      env.decode jam = some proof ∧
      proof.firstPuzzle = some (expectedPuzzle nonce (i + j) defaultPowLen) := by
  induction proofs generalizing i j with
  | nil => exact absurd hj (Nat.not_lt_zero _)
  | cons b64 proofs ih =>
    simp only [checkProofs] at h
    split at h
    · cases h
    rename_i jam hb
    split at h
    · cases h
    rename_i hc
    have hrest : checkProofs env nonce (i + 1) proofs = .ok u := by
      split at h
      · exact h
      · cases h
      · cases h
      · cases h
    cases j with
    | zero =>
      obtain ⟨proof, hd, hp⟩ := checkBinding_eq_ok hc
      exact ⟨b64, jam, proof, rfl, hb, hd, hp⟩
    | succ j =>
      obtain ⟨b64', jam', proof', hget, hrest'⟩ := ih hrest (Nat.lt_of_succ_lt_succ hj)
      refine ⟨b64', jam', proof', hget, ?_⟩
      rwa [show i + (j + 1) = i + 1 + j by omega]

theorem checkProofs_error {env : ZkEnv} {nonce : String} {i : Nat} {proofs : List String}
    {r : Reply} (h : checkProofs env nonce i proofs = .error r) :
    r.status = 400 ∨ r.status = 500 := by
  induction proofs generalizing i with
  | nil => cases h
  | cons b64 proofs ih =>
    simp only [checkProofs] at h
    split at h
    · cases h; exact .inl rfl
    split at h
    · cases h; exact .inl rfl
    split at h
    · exact ih h
    · cases h; exact .inl rfl
    · cases h; exact .inl rfl
    · cases h; exact .inr rfl

theorem validate_error {env : ZkEnv} {k : UInt64} {body : Except String RunSubmission} {r : Reply}
    (h : validate env k body = .error r) : r.status = 400 ∨ r.status = 500 := by
  unfold validate at h
  split at h
  · cases h; exact .inl rfl
  split at h
  · cases h; exact .inl rfl
  iterate 4
    split at h
    · cases h; exact .inl rfl
  split at h
  · rename_i hc; cases h; exact checkProofs_error hc
  · cases h

theorem validate_eq_ok {env : ZkEnv} {k : UInt64} {body : Except String RunSubmission}
    {nonce : UInt64} {sub : RunSubmission} (h : validate env k body = .ok (nonce, sub)) :
    body = .ok sub ∧ parseU64 sub.nonce = .ok nonce ∧ UInt64.ofNat sub.proofs.length = k ∧
      checkProofs env sub.nonce 0 sub.proofs = .ok () := by
  unfold validate at h
  split at h
  · cases h
  split at h
  · cases h
  rename_i sub' nonce' hn
  iterate 4
    split at h
    · cases h
  rename_i hk
  split at h
  · cases h
  rename_i hc
  cases h
  exact ⟨rfl, hn, not_not.mp hk, hc⟩

theorem validate_proves {env : ZkEnv} {k : UInt64} {body : Except String RunSubmission}
    {nonce : UInt64} {sub : RunSubmission} (h : validate env k body = .ok (nonce, sub)) :
    Proves env sub.proofs sub.nonce k.toNat := by
  obtain ⟨-, -, hk, hc⟩ := validate_eq_ok h
  intro i hi
  have hlen : i < sub.proofs.length := by
    rw [← hk, UInt64.toNat_ofNat'] at hi
    exact lt_of_lt_of_le hi (Nat.mod_le _ _)
  have := checkProofs_eq_ok hc hlen
  rwa [Nat.zero_add] at this

/-- Two challenges that the same proofs prove ask for the same puzzles. -/
theorem Proves.iff_sameBelts {env : ZkEnv} {proofs : List String} {raw challenge : String} {k : Nat}
    (h : Proves env proofs raw k) : Proves env proofs challenge k ↔ SameBelts raw challenge k := by
  constructor
  · intro h' i hi
    obtain ⟨b64, jam, proof, hget, hb, hd, hp⟩ := h i hi
    obtain ⟨b64', jam', proof', hget', hb', hd', hp'⟩ := h' i hi
    rw [hget] at hget'
    cases hget'
    rw [hb] at hb'
    cases hb'
    rw [hd] at hd'
    cases hd'
    rw [hp] at hp'
    exact Option.some.inj hp'
  · intro hs i hi
    obtain ⟨b64, jam, proof, hget, hb, hd, hp⟩ := h i hi
    exact ⟨b64, jam, proof, hget, hb, hd, by rw [hp, hs i hi]⟩

/-- An accepted request records a run for the parsed nonce. Its proofs prove the challenge that was
minted under that nonce if and only if the request's spelling of it hashes alike, as the decimal
itself does. -/
theorem accepted_proves_iff {env : ZkEnv} {k : UInt64} {s s' : RegistryState} {eny now : Nat}
    {sub : RunSubmission} {reply : Reply}
    (h : submitRun env k s eny now (.ok sub) = some (reply, s')) (hok : reply.status = 200) :
    ∃ n : UInt64, parseU64 sub.nonce = .ok n ∧
      (∃ r : Kernel.Run, s'.runs = r :: s.runs ∧ r.nonce = n.toNat) ∧
      (Proves env sub.proofs (u64String n) k.toNat ↔
        SameBelts sub.nonce (u64String n) k.toNat) ∧
      (Kit.CanonicalNumeral sub.nonce → Proves env sub.proofs (u64String n) k.toNat) := by
  unfold submitRun at h
  split at h
  · rename_i r hv
    cases h
    have := validate_error hv
    omega
  · rename_i n sub' hv
    obtain ⟨hsub, hn, -, -⟩ := validate_eq_ok hv
    cases hsub
    obtain ⟨⟨a, s₁⟩, hk, heq⟩ := Option.map_eq_some_iff.mp h
    simp only [Prod.mk.injEq] at heq
    obtain ⟨rfl, rfl⟩ := heq
    have hiff : Proves env sub.proofs (u64String n) k.toNat ↔ _ :=
      (validate_proves hv).iff_sameBelts
    refine ⟨n, hn, ?_, hiff, fun hc => hiff.mpr (sameBelts_of_canonical hn hc _)⟩
    match a, hk, hok with
    | .ok (.ok id), hk, _ =>
      obtain ⟨r, hr, -, hrn⟩ := Kernel.submitRun_recorded hk
      exact ⟨r, hr, hrn⟩

/-- An environment in which every text decodes to a proof of `raw` at index 0 that verifies. -/
def provesOnly (raw : String) : ZkEnv where
  base64 _ := some [0]
  decode _ := some ⟨[.other, .puzzle (expectedPuzzle raw 0 defaultPowLen)]⟩
  verify _ _ := .valid
  nockAppError _ := ""

/-- A request for nonce `raw` with one proof. -/
def oneProof (raw : String) : RunSubmission := ⟨raw, "m1-max", "0.1.0", 900, ["AA=="]⟩

/-- The kernel after nonce 7 was minted. -/
def minted7 : RegistryState := Kernel.init.mint 7 0

theorem accepted_proves_iff_7 : Proves (provesOnly "7") (oneProof "7").proofs "7" 1 := by
  obtain ⟨n, hn, -, -, hc⟩ :=
    @accepted_proves_iff (provesOnly "7") 1 minted7 _ 0 Kernel.s1 (oneProof "7") _ rfl rfl
  have h7 : parseU64 (oneProof "7").nonce = .ok 7 := rfl
  rw [h7] at hn
  cases hn
  exact hc (by decide)

/-- `007` is the number 7 and is accepted with a proof of the challenge `007`, which no mint ever
handed out. -/
theorem accepted_other_spelling :
    ¬ ∀ (env : ZkEnv) (k : UInt64) (s s' : RegistryState) (eny now : Nat) (sub : RunSubmission)
      (reply : Reply), submitRun env k s eny now (.ok sub) = some (reply, s') →
      reply.status = 200 → ∀ n, parseU64 sub.nonce = .ok n →
      Proves env sub.proofs (u64String n) k.toNat := by
  intro h
  have hp := h (provesOnly "007") 1 minted7 _ 0 Kernel.s1 (oneProof "007") _ rfl rfl 7 (by decide)
  obtain ⟨b64, jam, proof, -, -, hd, hpuz⟩ := hp 0 (by decide)
  cases hd
  exact absurd hpuz (by decide +kernel)

end Registry
end Nockmark
