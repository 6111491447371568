import Nockmark.Registry.ElapsedClaim
import Nockmark.Registry.Handshake
import Nockmark.Registry.Server

/-!
# Registry.HonestAi

What `tock ai-bench --submit` sends is admitted, and every win of it verifies.

The two ends meet at `HonestWins`: a run of the client makes such wins, and the checks of
`submit_ai_run` let such wins pass.

* `Upstream`: what is assumed of the crates that both ends use.
* `fromValue_value`: the registry reads the body that the client writes.
* `bench_honest`: what a run for a registry's challenge submits.
* `submit_honest`: and what the handler of that submission goes on with.
-/

namespace Nockmark
namespace Registry

open Kit.FormUrl (Faithful pairs_render)
open Kit.Json (Value Members)
open Tock (AiCertBlob AiChallenge AiHost AiMoeChallenge AiMoeWin AiStatement AiWin Backend Bytes32
  ClientJson Flags Hardware aiBenchWith_submission canonicalOrdinalSpace denseWins elapsedMs
  extranonceNonce extranonceSpace fetchAiChallenge nockchainPin resolve trimEndSlashes)

/-- Grinder, prover and verifier agree: a winning attempt's certificate is encoded within the size
cap, decodes to the attempt that it was made for, and verifies. -/
structure Upstream (host : AiHost) (env : AiEnv) (jackpot : Bytes32 → List UInt8 → Bytes32)
    (moeJackpot : Bytes32 → UInt32 → Bytes32) : Prop where
  dense : host.dense.Lawful jackpot
  canonical : host.canonical.Lawful moeJackpot
  gpu : host.gpu.Lawful moeJackpot
  threshold : host.canonical.canonicalGrindThreshold = env.moeThreshold
  base64 : ∀ bytes, env.base64 (host.base64 bytes) = some bytes
  decode : ∀ ch w, AiWin.Certified host.dense ch w →
    w.submissionBytes.length ≤ aiSubmissionBlobMax ∧
      env.decodeCert w.submissionBytes = .ok (extranonceNonce w.extranonce)
  decodeMoe : ∀ ch w, AiMoeWin.Certified host.moe ch w →
    w.submissionBytes.length ≤ aiMoeSubmissionBlobMax ∧
      env.decodeMoeCert w.submissionBytes = .ok w.ordinal
  check : ∀ ch w, AiWin.Certified host.dense ch w →
    denseWins (jackpot ch.challenge) ch.target w.extranonce.toNat = true →
    env.checkCert ch.challenge ch.target w.submissionBytes = .ok ()
  checkMoe : ∀ ch w threshold, AiMoeWin.Certified host.moe ch w →
    env.moeThreshold ch.target = .ok threshold →
    Tock.wins (moeJackpot ch.challenge) threshold w.ordinal.toNat = true →
    env.checkMoeCert ch.challenge ch.target w.ordinal w.submissionBytes = .ok ()

/-! ### The body -/

/-- `from_value::<AiWinSubmission>` -/
def AiWinSubmission.fromValue : Value → Option AiWinSubmission
  | .obj m => do
    let extranonce ← asU64 (← m.get "extranonce")
    let certB64 ← (← m.get "cert_b64").asStr
    return ⟨extranonce, certB64⟩
  | _ => none

/-- `from_value::<AiRunSubmission>` -/
def AiRunSubmission.fromValue : Value → Option AiRunSubmission
  | .obj m => do
    let nonce ← (← m.get "nonce").asStr
    let hardware ← (← m.get "hardware").asStr
    let proverVersion ← (← m.get "prover_version").asStr
    let grindElapsedMs ← asU64 (← m.get "grind_elapsed_ms")
    let wins ← (← (← m.get "wins").asArr).mapM AiWinSubmission.fromValue
    let statement ← Tock.optional Value.asStr (m.get "statement")
    return ⟨nonce, hardware, proverVersion, grindElapsedMs, wins, statement⟩
  | _ => none

/-- A client's win, as the registry reads it. -/
def winOfClient (w : Tock.AiWinSubmission) : AiWinSubmission := ⟨w.extranonce, w.certB64⟩

/-- A client's submission, as the registry reads it. -/
def subOfClient (sub : Tock.AiSubmission) : AiRunSubmission :=
  ⟨sub.nonce, sub.hardware, sub.proverVersion, sub.grindElapsedMs, sub.wins.map winOfClient,
    sub.statement⟩

theorem asU64_num (n : UInt64) : asU64 (.num n.toNat) = some n := asU64_u64 n

theorem fromValue_win (w : Tock.AiWinSubmission) :
    AiWinSubmission.fromValue w.value = some (winOfClient w) := by
  simp [AiWinSubmission.fromValue, Tock.AiWinSubmission.value, Members.ofList, Value.asStr,
    asU64_num, winOfClient]

theorem mapM_fromValue (wins : List Tock.AiWinSubmission) :
    wins.mapM (AiWinSubmission.fromValue ∘ Tock.AiWinSubmission.value) =
      some (wins.map winOfClient) := by
  induction wins with
  | nil => rfl
  | cons w wins ih =>
    rw [List.mapM_cons, Function.comp, fromValue_win, ← Function.comp_def, ih]
    rfl

theorem fromValue_value (sub : Tock.AiSubmission) :
    AiRunSubmission.fromValue sub.value = some (subOfClient sub) := by
  obtain ⟨nonce, hardware, proverVersion, grindElapsedMs, wins, statement⟩ := sub
  cases statement with
  | none =>
    simp [AiRunSubmission.fromValue, Tock.AiSubmission.value, Members.ofList, Value.asStr,
      Value.asArr, asU64_num, mapM_fromValue, Tock.optional, subOfClient, Members.get]
  | some s =>
    simp [AiRunSubmission.fromValue, Tock.AiSubmission.value, Members.ofList, Value.asStr,
      Value.asArr, asU64_num, mapM_fromValue, Tock.optional, subOfClient]

/-- The body of a request on the AI track. -/
def bodyOf (shape : Value → String) (v : Value) : Except String AiRunSubmission :=
  match AiRunSubmission.fromValue v with
  | some sub => .ok sub
  | none => .error (shape v)

theorem elapsedMs_ne_zero (totalS : ℚ) : elapsedMs totalS ≠ 0 := by
  have hle : min (max ⌈totalS * (1000 : ℕ)⌉₊ 1) (2 ^ 64 - 1) ≤ 2 ^ 64 - 1 := Nat.min_le_right _ _
  have hpos : 1 ≤ min (max ⌈totalS * (1000 : ℕ)⌉₊ 1) (2 ^ 64 - 1) :=
    Nat.le_min.mpr ⟨Nat.le_max_right _ _, by decide⟩
  intro h
  have hnat := congrArg UInt64.toNat h
  rw [elapsedMs, UInt64.toNat_ofNat', Nat.mod_eq_of_lt (by omega)] at hnat
  rw [hnat] at hpos
  exact absurd hpos (by decide)

/-! ### The wins -/

/-- The registry decodes the win's blob, and the statement's verifier accepts it. -/
def Passes (env : AiEnv) (s : Statement) (challenge target : Bytes32)
    (w : Tock.AiWinSubmission) : Prop :=
  ∃ blob, env.base64 w.certB64 = some blob ∧ blob.length ≤ s.blobMax ∧
    s.verify env challenge target w.extranonce blob = .ok ()

structure HonestWins (env : AiEnv) (s : Statement) (challenge target : Bytes32) (k : UInt64)
    (wins : List Tock.AiWinSubmission) : Prop where
  count : wins.length = k.toNat
  ascending : (wins.map fun w => w.extranonce.toNat).Pairwise (· < ·)
  fits : s = .canonicalMoe → ∀ w ∈ wins, w.extranonce.toNat < canonicalOrdinalSpace
  passes : ∀ w ∈ wins, Passes env s challenge target w

section Bench

variable {host : AiHost} {env : AiEnv} {jackpot : Bytes32 → List UInt8 → Bytes32}
  {moeJackpot : Bytes32 → UInt32 → Bytes32}

theorem passes_dense (hup : Upstream host env jackpot moeJackpot) {ch : AiChallenge} {w : AiWin}
    (hw : w.Certified host.dense ch)
    (hwin : denseWins (jackpot ch.challenge) ch.target w.extranonce.toNat = true) :
    Passes env .dense ch.challenge ch.target ⟨w.extranonce, host.base64 w.submissionBytes⟩ := by
  obtain ⟨hlen, hdecode⟩ := hup.decode ch w hw
  have hnonce := Tock.nonceExtranonce_eq_some.mpr (Eq.refl (extranonceNonce w.extranonce))
  refine ⟨w.submissionBytes, hup.base64 _, hlen, ?_⟩
  simp only [Statement.verify, verifySubmission, if_neg (Nat.not_lt.mpr hlen), hdecode, hnonce,
    ne_eq, not_true_eq_false, if_false]
  exact hup.check ch w hw hwin

theorem passes_moe (hup : Upstream host env jackpot moeJackpot) {ch : AiMoeChallenge}
    {w : AiMoeWin} (hw : w.Certified host.moe ch) {threshold : Bytes32}
    (ht : env.moeThreshold ch.target = .ok threshold)
    (hwin : Tock.wins (moeJackpot ch.challenge) threshold w.ordinal.toNat = true) :
    Passes env .canonicalMoe ch.challenge ch.target
      ⟨w.ordinal.toUInt64, host.base64 w.submissionBytes⟩ := by
  obtain ⟨hlen, hdecode⟩ := hup.decodeMoe ch w hw
  have hordinal : w.ordinal.toUInt64.toUInt32 = w.ordinal := by simp
  refine ⟨w.submissionBytes, hup.base64 _, hlen, ?_⟩
  simp only [Statement.verify, verifyMoeSubmission, if_neg (Nat.not_lt.mpr hlen), hdecode,
    hordinal, ne_eq, not_true_eq_false, if_false]
  exact hup.checkMoe ch w threshold hw ht hwin

theorem denseWork_honest (hup : Upstream host env jackpot moeJackpot) {fuel : ℕ}
    (hfuel : extranonceSpace ≤ fuel) {challenge target : Bytes32} {k : UInt64}
    {wins : List Tock.AiWinSubmission}
    (h : host.denseWork fuel challenge target k = some (.ok wins)) :
    HonestWins env .dense challenge target k wins := by
  obtain ⟨r, hrun, hr⟩ := Option.map_eq_some_iff.mp h
  cases r with
  | error e => cases hr
  | ok summary =>
    cases hr
    have hexact := Tock.run_eq_ok hup.dense hfuel hrun
    have hall := hexact.ground.all
    constructor
    case count =>
      have hcount := hexact.ground.count
      rw [List.length_map] at hcount ⊢
      exact hcount
    case ascending =>
      rw [List.map_map]
      have hsorted := Kit.Search.pairwise_hits (denseWins (jackpot challenge) target) 0
        summary.totalAttempts.toNat
      rw [← hall] at hsorted
      exact hsorted
    case fits => exact nofun
    case passes =>
      intro w hw
      obtain ⟨win, hwin, rfl⟩ := List.mem_map.mp hw
      have hmem := List.mem_map_of_mem (f := fun w : AiWin => w.extranonce.toNat) hwin
      rw [hall, Kit.Search.mem_hits] at hmem
      exact passes_dense hup (hexact.certified win hwin) hmem.2

theorem moeWork_honest (hup : Upstream host env jackpot moeJackpot) {fuel batchAttempts : ℕ}
    (hfuel : canonicalOrdinalSpace < fuel) (hbatch : 0 < batchAttempts) {backend : Backend}
    {challenge target : Bytes32} {k : UInt64} {wins : List Tock.AiWinSubmission}
    (h : host.moeWork fuel batchAttempts backend challenge target k = some (.ok wins)) :
    HonestWins env .canonicalMoe challenge target k wins := by
  unfold Tock.AiHost.moeWork at h
  cases ht : host.canonical.canonicalGrindThreshold target with
  | error e =>
    simp [Tock.expectedAttemptsPerMoeWin, ht] at h
  | ok threshold =>
    simp only [Tock.expectedAttemptsPerMoeWin, ht] at h
    obtain ⟨r, hrun, hr⟩ := Option.map_eq_some_iff.mp h
    cases r with
    | error e => cases hr
    | ok summary =>
      cases hr
      have hexact := Tock.runMoe_exact hup.canonical hup.gpu ht hbatch hfuel hrun
      have hall := hexact.ground.all
      have hordinals : (fun w : AiMoeWin => w.ordinal.toUInt64.toNat) =
          fun w => w.ordinal.toNat := by
        funext w
        exact UInt32.toNat_toUInt64 _
      constructor
      case count =>
        have hcount := hexact.ground.count
        rw [List.length_map] at hcount ⊢
        exact hcount
      case ascending =>
        have hsorted := Kit.Search.pairwise_hits (Tock.wins (moeJackpot challenge) threshold) 0
          summary.totalAttempts
        rw [← hall, ← hordinals] at hsorted
        rw [List.map_map]
        exact hsorted
      case fits =>
        intro _ w hw
        obtain ⟨win, -, rfl⟩ := List.mem_map.mp hw
        rw [UInt32.toNat_toUInt64]
        exact win.ordinal.toNat_lt
      case passes =>
        intro w hw
        obtain ⟨win, hwin, rfl⟩ := List.mem_map.mp hw
        have hmem := List.mem_map_of_mem (f := fun w : AiMoeWin => w.ordinal.toNat) hwin
        rw [hall, Kit.Search.mem_hits] at hmem
        exact passes_moe hup (hexact.certified win hwin) (hup.threshold ▸ ht) hmem.2

/-- A submission with all that the registry looks at. -/
structure HonestSubmission (env : AiEnv) (st : AiStatement) (nonce : UInt64) (target : Bytes32)
    (k : UInt64) (sub : Tock.AiSubmission) : Prop where
  wins : HonestWins env (ofClient st) (challenge32 env.blake3 nonce) target k sub.wins
  nonce : sub.nonce = u64String nonce
  hardware : sub.hardware.utf8ByteSize ≤ 128
  proverVersion : sub.proverVersion = nockchainPin
  elapsed : sub.grindElapsedMs ≠ 0
  statement : sub.statement = if st = .dense then none else some st.asStr

/-- The workload is the one of the challenge, whatever the flags. -/
theorem resolve_challengeOf (devChallenge loosest : Bytes32) (targetFor : ℕ → Option Bytes32)
    (flags : Flags) (cfg : Config) (s : Statement) (nonce : UInt64) (tier : Option Tier) :
    resolve devChallenge loosest targetFor flags (some (challengeOf env cfg s nonce tier)) =
      .ok (challenge32 env.blake3 nonce, (tier.map Tier.target).getD (cfg.target s), cfg.aiK) := by
  simp only [resolve, challengeOf, Tock.hexArg, Tock.parseHex32_hex32]
  rfl

theorem bench_honest (hup : Upstream host env jackpot moeJackpot) {fuel batchAttempts : ℕ}
    (hfuel : extranonceSpace ≤ fuel) (hbatch : 0 < batchAttempts) {backend : Backend}
    {flags : Flags} {st : AiStatement} {cfg : Config} {nonce : UInt64} {tier : Option Tier}
    {hw : Hardware} {ms : UInt64} (hms : ms ≠ 0) {sub : Tock.AiSubmission}
    (h : host.bench fuel batchAttempts backend flags st
      (some (challengeOf env cfg (ofClient st) nonce tier)) hw ms = some (.ok (some sub))) :
    HonestSubmission env st nonce ((tier.map Tier.target).getD (cfg.target (ofClient st))) cfg.aiK
      sub := by
  have hmoe : canonicalOrdinalSpace < fuel := Nat.lt_of_lt_of_le (by decide) hfuel
  cases st with
  | dense =>
    obtain ⟨challenge, target, k, hload, hwork, hhw, hsub⟩ := aiBenchWith_submission h
    rw [resolve_challengeOf] at hload
    cases hload
    obtain ⟨hardware, hhardware, hlong⟩ := Tock.capBytes_longest 128 (Tock.hostText hw)
    cases hhardware.symm.trans hhw
    rw [hsub]
    exact ⟨denseWork_honest hup hfuel hwork, rfl, hlong.fits, rfl, hms, rfl⟩
  | canonicalMoe =>
    obtain ⟨challenge, target, k, hload, hwork, hhw, hsub⟩ := aiBenchWith_submission h
    rw [resolve_challengeOf] at hload
    cases hload
    obtain ⟨hardware, hhardware, hlong⟩ := Tock.hardwareDescriptor_longest backend hw
    cases hhardware.symm.trans hhw
    rw [hsub]
    exact ⟨moeWork_honest hup hmoe hbatch hwork, rfl, hlong.fits, rfl, hms, rfl⟩

end Bench

/-! ### The request -/

section Request

variable {env : AiEnv} {s : Statement} {challenge target : Bytes32} {k : UInt64}

theorem strictlyAscending_of_pairwise {xs : List UInt64} (h : xs.Pairwise (· < ·)) :
    extranoncesStrictlyAscending xs = true := by
  induction xs with
  | nil => rfl
  | cons x xs ih =>
    obtain ⟨hx, hxs⟩ := List.pairwise_cons.mp h
    cases xs with
    | nil => rfl
    | cons y ys =>
      rw [extranoncesStrictlyAscending, ih hxs, Bool.and_true, decide_eq_true_eq]
      exact hx y List.mem_cons_self

/-- Each win comes with a blob that the verifier accepts. -/
theorem decodeBlobs_passes {wins : List Tock.AiWinSubmission}
    (h : ∀ w ∈ wins, Passes env s challenge target w) (i : ℕ) :
    ∃ blobs, decodeBlobs env s.blobMax i (wins.map winOfClient) = .ok blobs ∧
      ∀ winBlob ∈ (wins.map winOfClient).zip blobs,
        s.verify env challenge target winBlob.1.extranonce winBlob.2 = .ok () := by
  induction wins generalizing i with
  | nil => exact ⟨[], rfl, nofun⟩
  | cons w wins ih =>
    obtain ⟨⟨blob, hb, hlen, hv⟩, hwins⟩ := List.forall_mem_cons.mp h
    obtain ⟨blobs, hblobs, hall⟩ := ih hwins (i + 1)
    refine ⟨blob :: blobs, ?_, ?_⟩
    · simp only [List.map_cons, decodeBlobs, winOfClient, hb, if_neg (Nat.not_lt.mpr hlen)]
      rw [hblobs]
    · rw [List.map_cons, List.zip_cons_cons]
      exact List.forall_mem_cons.mpr ⟨hv, hall⟩

/-- A request for the challenge, whose wins all verify. -/
structure AiRequest.Honest (env : AiEnv) (st : AiStatement) (nonce : UInt64) (target : Bytes32)
    (sub : Tock.AiSubmission) (req : AiRequest) : Prop where
  verifies : ∀ winBlob ∈ req.sub.wins.zip req.blobs,
    req.statement.verify env (challenge32 env.blake3 req.nonce) target winBlob.1.extranonce
      winBlob.2 = .ok ()
  extranonces : req.extranonces = sub.wins.map Tock.AiWinSubmission.extranonce
  nonce : req.nonce = nonce
  statement : req.statement = ofClient st
  sub : req.sub = subOfClient sub

theorem validateAi_honest {st : AiStatement} {nonce : UInt64} {sub : Tock.AiSubmission}
    (h : HonestSubmission env st nonce target k sub) :
    ∃ req, validateAi env k .dense (.ok (subOfClient sub)) = .ok req ∧
      req.Honest env st nonce target sub := by
  obtain ⟨hwins, hasc, hfits, hpasses⟩ := h.wins
  have hstatement : bodyStatement env .dense (subOfClient sub) = .ok (ofClient st) := by
    rw [bodyStatement, subOfClient, h.statement]
    cases st <;> rfl
  have hnonce : parseU64 (subOfClient sub).nonce = .ok nonce := by
    rw [subOfClient, h.nonce]
    exact parseU64_u64String nonce
  have hversion : ¬ (subOfClient sub).proverVersion.utf8ByteSize > 64 := by
    rw [show (subOfClient sub).proverVersion = nockchainPin from h.proverVersion]
    decide
  have hlen : UInt64.ofNat (subOfClient sub).wins.length = k := by
    rw [subOfClient, List.length_map, hwins, UInt64.ofNat_toNat]
  have hxs : (subOfClient sub).wins.map AiWinSubmission.extranonce =
      sub.wins.map Tock.AiWinSubmission.extranonce := by
    rw [subOfClient, List.map_map]
    rfl
  have hpairs : extranoncesStrictlyAscending (sub.wins.map Tock.AiWinSubmission.extranonce) =
      true := by
    apply strictlyAscending_of_pairwise
    rw [List.pairwise_map] at hasc ⊢
    exact hasc
  have hu32 : ¬ (ofClient st = .canonicalMoe ∧
      (sub.wins.map Tock.AiWinSubmission.extranonce).any (0xFFFFFFFF < ·)) := by
    rintro ⟨hst, hany⟩
    obtain ⟨x, hx, hlt⟩ := List.any_eq_true.mp hany
    obtain ⟨w, hw, rfl⟩ := List.mem_map.mp hx
    have hle := hfits hst w hw
    have hgt := UInt64.lt_iff_toNat_lt.mp (of_decide_eq_true hlt)
    rw [show (0xFFFFFFFF : UInt64).toNat = 2 ^ 32 - 1 from rfl] at hgt
    unfold canonicalOrdinalSpace at hle
    omega
  obtain ⟨blobs, hblobs, hall⟩ := decodeBlobs_passes hpasses 0
  refine ⟨⟨nonce, ofClient st, subOfClient sub, sub.wins.map Tock.AiWinSubmission.extranonce,
    blobs⟩, ?_, hall, rfl, rfl, rfl, rfl⟩
  have hblobs' : decodeBlobs env (ofClient st).blobMax 0 (subOfClient sub).wins = .ok blobs :=
    hblobs
  have helapsed : (subOfClient sub).grindElapsedMs ≠ 0 := h.elapsed
  have hhardware : ¬ (subOfClient sub).hardware.utf8ByteSize > 128 := Nat.not_lt.mpr h.hardware
  simp only [validateAi, hstatement, hnonce, helapsed, hhardware, hversion, hlen, hxs, hpairs,
    hu32, hblobs', if_false, ne_eq, not_true_eq_false, Bool.not_true, Bool.false_eq_true]

end Request

/-! ### The URL -/

theorem query_aiRunUrl {lossy : List UInt8 → String} (hlossy : Faithful lossy) {base : String}
    (hbase : BaseUrl base) (debug : String → String) :
    let q := queryOf lossy (trimEndSlashes base ++ "/run?track=ai")
    isAiTrack q = true ∧ statementFromQuery debug q = .ok .dense := by
  intro q
  have hurl : (trimEndSlashes base ++ "/run?track=ai").toList =
      ((trimEndSlashes base).toList ++ "/run".toList) ++
        '?' :: ['&'].intercalate ([("track", "ai")].map Kit.FormUrl.render) := by
    simp [Kit.FormUrl.render, List.intercalate]
  have hpath : '?' ∉ (trimEndSlashes base).toList ++ "/run".toList :=
    List.not_mem_append (baseUrl_trim hbase).1 (by simp)
  have hquery : '#' ∉ ['&'].intercalate ([("track", "ai")].map Kit.FormUrl.render) := by
    simp [Kit.FormUrl.render, List.intercalate]
  have hq : q = Kit.FormUrl.lookup [("track", "ai")] := by
    rw [← @pairs_render lossy hlossy [("track", "ai")] (by simp [Kit.FormUrl.Plain]),
      ← queryText_eq hurl hpath hquery]
    rfl
  rw [hq]
  simp [isAiTrack, statementFromQuery, Kit.FormUrl.lookup]

/-- The handler of the submission goes on to its status check, with wins that verify. -/
theorem submit_honest {env : AiEnv} {zk : ZkEnv} {cfg : Config} {lossy : List UInt8 → String}
    (hlossy : Faithful lossy) {base : String} (hbase : BaseUrl base) {st : AiStatement}
    {nonce : UInt64} {target : Bytes32} {sub : Tock.AiSubmission}
    (h : HonestSubmission env st nonce target cfg.aiK sub) (asRun : Except String RunSubmission)
    (shape : Value → String) :
    ∃ req, submit env zk cfg (queryOf lossy (trimEndSlashes base ++ "/run?track=ai"))
        ⟨asRun, bodyOf shape sub.value⟩ = .checking req ∧
      req.Honest env st nonce target sub := by
  obtain ⟨hq, hs⟩ := query_aiRunUrl hlossy hbase env.debug
  obtain ⟨req, hreq, hhonest⟩ := validateAi_honest h
  refine ⟨req, ?_, hhonest⟩
  have hbody : bodyOf shape sub.value = .ok (subOfClient sub) := by
    rw [bodyOf, fromValue_value]
  rw [submit, if_pos hq, hs]
  simp only [hbody, hreq]

end Registry
end Nockmark
