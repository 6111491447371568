import Nockmark.Registry.Request
import Nockmark.Registry.Store
import Nockmark.Tock.Aipow

/-!
# Registry.AiSubmit

A submission on the AI track: the checks that `submit_ai_run` (`registry/src/http.rs`) makes before
it takes a lock, and the verification of one win (`registry/src/aipow.rs`, `aipow_moe.rs`).

Of a certificate blob the model reads the nonce or ordinal that it carries; everything that the
verifiers check after that is the parameter `checkCert` or `checkMoeCert`.

* `validateAi_eq_ok`: what an admitted request satisfies.
* `Statement.verify_blob`: a blob verifies for one attempt only.
-/

namespace Nockmark
namespace Registry

open Tock (Bytes32)

structure AiWinSubmission where
  extranonce : UInt64
  certB64 : String

structure AiRunSubmission where
  nonce : String
  hardware : String
  proverVersion : String
  grindElapsedMs : UInt64
  wins : List AiWinSubmission
  statement : Option String

/-- The libraries that the AI track calls. -/
structure AiEnv where
  base64 : String → Option (List UInt8)
  blake3 : List UInt8 → Bytes32
  debug : String → String
  /-- The nonce of a decoded `AiCertBlob`. -/
  decodeCert : List UInt8 → Except String (List UInt8)
  /-- The ordinal of a decoded `AiMoeCertBlob`. -/
  decodeMoeCert : List UInt8 → Except String UInt32
  checkCert : Bytes32 → Bytes32 → List UInt8 → Except String Unit
  checkMoeCert : Bytes32 → Bytes32 → UInt32 → List UInt8 → Except String Unit
  moeThreshold : Bytes32 → Except String Bytes32

/-- An AI track whose libraries reject everything. -/
def strict : AiEnv where
  base64 _ := none
  blake3 _ := .fill 32 0xff
  debug := id
  decodeCert _ := .error "undecodable"
  decodeMoeCert _ := .error "undecodable"
  checkCert _ _ _ := .error "invalid"
  checkMoeCert _ _ _ _ := .error "invalid"
  moeThreshold := Tock.scaledThreshold

/-! ### One win -/

def verifySubmission (env : AiEnv) (challenge target : Bytes32) (extranonce : UInt64)
    (blob : List UInt8) : Except String Unit :=
  if blob.length > aiSubmissionBlobMax then
    .error s!"submission blob {Kit.dec blob.length} bytes exceeds {Kit.dec aiSubmissionBlobMax}"
  else
    match env.decodeCert blob with
    | .error e => .error s!"submission decode: {e}"
    | .ok nonce =>
      if Tock.nonceExtranonce nonce ≠ some extranonce then
        .error "blob nonce does not match the win's extranonce"
      else env.checkCert challenge target blob

def verifyMoeSubmission (env : AiEnv) (challenge target : Bytes32) (ordinal : UInt32)
    (blob : List UInt8) : Except String Unit :=
  if blob.length > aiMoeSubmissionBlobMax then
    .error s!"submission blob {Kit.dec blob.length} bytes exceeds {Kit.dec aiMoeSubmissionBlobMax}"
  else
    match env.decodeMoeCert blob with
    | .error e => .error s!"submission decode: {e}"
    | .ok o =>
      if o ≠ ordinal then .error "blob ordinal does not match the win's ordinal"
      else env.checkMoeCert challenge target ordinal blob

/-- The statement's verifier; canonical MoE numbers attempts by a u32 ordinal. -/
def Statement.verify (env : AiEnv) (s : Statement) (challenge target : Bytes32) (attempt : UInt64)
    (blob : List UInt8) : Except String Unit :=
  match s with
  | .dense => verifySubmission env challenge target attempt blob
  | .canonicalMoe => verifyMoeSubmission env challenge target attempt.toUInt32 blob

theorem verifySubmission_eq_ok {env : AiEnv} {challenge target : Bytes32} {x : UInt64}
    {blob : List UInt8} {u : Unit} (h : verifySubmission env challenge target x blob = .ok u) :
    ∃ nonce, env.decodeCert blob = .ok nonce ∧ Tock.nonceExtranonce nonce = some x := by
  unfold verifySubmission at h
  split at h
  · cases h
  split at h
  · cases h
  rename_i nonce hd
  split at h
  · cases h
  rename_i hn
  exact ⟨nonce, hd, not_not.mp hn⟩

theorem verifyMoeSubmission_eq_ok {env : AiEnv} {challenge target : Bytes32} {o : UInt32}
    {blob : List UInt8} {u : Unit} (h : verifyMoeSubmission env challenge target o blob = .ok u) :
    env.decodeMoeCert blob = .ok o := by
  unfold verifyMoeSubmission at h
  split at h
  · cases h
  split at h
  · cases h
  rename_i o' hd
  split at h
  · cases h
  rename_i ho
  rw [hd, not_not.mp ho]

/-- The ordinals that name an attempt of the statement. -/
def Statement.Names (s : Statement) (attempt : UInt64) : Prop :=
  s = .canonicalMoe → attempt.toUInt32.toUInt64 = attempt

/-- A blob carries one nonce or ordinal, so it verifies for one attempt only. -/
theorem Statement.verify_blob {env : AiEnv} {s : Statement} {c t c' t' : Bytes32} {x y : UInt64}
    {blob : List UInt8} {u u' : Unit} (hx : s.verify env c t x blob = .ok u)
    (hy : s.verify env c' t' y blob = .ok u') (hnx : s.Names x) (hny : s.Names y) : x = y := by
  cases s with
  | dense =>
    obtain ⟨n, hn, hxn⟩ := verifySubmission_eq_ok hx
    obtain ⟨n', hn', hyn⟩ := verifySubmission_eq_ok hy
    rw [hn] at hn'
    cases hn'
    rw [hxn] at hyn
    exact Option.some.inj hyn
  | canonicalMoe =>
    have h1 := verifyMoeSubmission_eq_ok hx
    rw [verifyMoeSubmission_eq_ok hy] at h1
    rw [← hnx rfl, ← hny rfl, Except.ok.inj h1]

/-! ### Checks before any lock -/

def Statement.blobMax : Statement → Nat
  | .dense => aiSubmissionBlobMax
  | .canonicalMoe => aiMoeSubmissionBlobMax

/-- Decode and size-cap the blobs of the wins from index `i` on. -/
def decodeBlobs (env : AiEnv) (blobMax : Nat) :
    Nat → List AiWinSubmission → Except Reply (List (List UInt8))
  | _, [] => .ok []
  | i, win :: wins =>
    match env.base64 win.certB64 with
    | none => .error (bad s!"win {Kit.dec i}: invalid base64")
    | some blob =>
      if blob.length > blobMax then
        .error (bad
          s!"win {Kit.dec i}: blob {Kit.dec blob.length} bytes exceeds {Kit.dec blobMax}")
      else
        match decodeBlobs env blobMax (i + 1) wins with
        | .error r => .error r
        | .ok blobs => .ok (blob :: blobs)

/-- What the checks leave: the parsed nonce and statement, and the wins in three vectors. -/
structure AiRequest where
  nonce : UInt64
  statement : Statement
  sub : AiRunSubmission
  extranonces : List UInt64
  blobs : List (List UInt8)

/-- The body's statement, or else that of the query. -/
def bodyStatement (env : AiEnv) (queryStatement : Statement) (sub : AiRunSubmission) :
    Except String Statement :=
  match sub.statement with
  | some s => Statement.parse env.debug s
  | none => .ok queryStatement

def validateAi (env : AiEnv) (aiK : UInt64) (queryStatement : Statement)
    (body : Except String AiRunSubmission) : Except Reply AiRequest :=
  match body with
  | .error e => .error (bad s!"bad submission body: {e}")
  | .ok sub =>
    match bodyStatement env queryStatement sub with
    | .error e => .error (bad e)
    | .ok statement =>
      match parseU64 sub.nonce with
      | .error _ => .error (bad "nonce must be a decimal u64")
      | .ok nonce =>
        if sub.grindElapsedMs = 0 then
          .error (bad "grind_elapsed_ms must be greater than zero")
        else if sub.hardware.utf8ByteSize > 128 then
          .error (bad "hardware string too long (max 128 bytes)")
        else if sub.proverVersion.utf8ByteSize > 64 then
          .error (bad "prover_version string too long (max 64 bytes)")
        else if UInt64.ofNat sub.wins.length ≠ aiK then
          .error (bad s!"expected {u64String aiK} wins, got {Kit.dec sub.wins.length}")
        else
          let extranonces := sub.wins.map AiWinSubmission.extranonce
          if !extranoncesStrictlyAscending extranonces then
            .error (bad "win extranonces must be strictly ascending")
          else if statement = .canonicalMoe ∧ extranonces.any (0xFFFFFFFF < ·) then
            .error (bad "canonical-moe ordinals must fit in u32")
          else
            match decodeBlobs env statement.blobMax 0 sub.wins with
            | .error r => .error r
            | .ok blobs => .ok ⟨nonce, statement, sub, extranonces, blobs⟩

/-- Every win has its blob, at its place. -/
theorem decodeBlobs_eq_ok {env : AiEnv} {blobMax i : Nat} {wins : List AiWinSubmission}
    {blobs : List (List UInt8)} (h : decodeBlobs env blobMax i wins = .ok blobs) :
    List.Forall₂ (fun win blob => env.base64 win.certB64 = some blob) wins blobs := by
  induction wins generalizing i blobs with
  | nil => cases h; exact .nil
  | cons win wins ih =>
    simp only [decodeBlobs] at h
    split at h
    · cases h
    rename_i blob hb
    split at h
    · cases h
    split at h
    · cases h
    · rename_i blobs' hbs
      cases h
      exact .cons hb (ih hbs)

theorem names_of_le {x : UInt64} (h : ¬ 0xFFFFFFFF < x) : x.toUInt32.toUInt64 = x := by
  rw [UInt64.lt_iff_toNat_lt] at h
  apply UInt64.toNat_inj.mp
  rw [UInt32.toNat_toUInt64, UInt64.toNat_toUInt32, Nat.mod_eq_of_lt]
  have : (0xFFFFFFFF : UInt64).toNat = 2 ^ 32 - 1 := rfl
  omega

/-- What the checks guarantee of a request. -/
structure AiRequest.Admitted (env : AiEnv) (aiK : UInt64) (req : AiRequest) : Prop where
  nonce : parseU64 req.sub.nonce = .ok req.nonce
  elapsed : req.sub.grindElapsedMs ≠ 0
  count : UInt64.ofNat req.sub.wins.length = aiK
  extranonces : req.extranonces = req.sub.wins.map AiWinSubmission.extranonce
  ascending : extranoncesStrictlyAscending req.extranonces = true
  names : ∀ x ∈ req.extranonces, req.statement.Names x
  blobs : List.Forall₂ (fun win blob => env.base64 win.certB64 = some blob) req.sub.wins req.blobs

theorem validateAi_eq_ok {env : AiEnv} {aiK : UInt64} {q : Statement}
    {body : Except String AiRunSubmission} {req : AiRequest}
    (h : validateAi env aiK q body = .ok req) : req.Admitted env aiK := by
  simp only [validateAi] at h
  split at h
  · cases h
  split at h
  · cases h
  split at h
  · cases h
  rename_i nonce hn
  split at h
  · cases h
  rename_i he
  split at h
  · cases h
  split at h
  · cases h
  split at h
  · cases h
  rename_i hk
  split at h
  · cases h
  rename_i hasc
  split at h
  · cases h
  rename_i hmoe
  split at h
  · cases h
  rename_i blobs hb
  cases h
  refine ⟨hn, he, not_not.mp hk, rfl, by simpa using hasc, ?_, decodeBlobs_eq_ok hb⟩
  intro x hx hs
  apply names_of_le
  intro hlt
  exact hmoe ⟨hs, List.any_eq_true.mpr ⟨x, hx, decide_eq_true hlt⟩⟩

end Registry
end Nockmark
