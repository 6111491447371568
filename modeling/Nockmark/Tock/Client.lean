import Nockmark.Tock.Bench
import Nockmark.Tock.Grind
import Nockmark.Tock.ProveRatio
import Nockmark.Tock.Tiers

/-!
# Tock.Client

The client of either track (`tock/src/client.rs`, and `ai_bench` and `ai_bench_moe` in
`tock/src/main.rs`): the URL that it asks for a challenge, what it checks of the answer, the
workload it runs and the submission it sends, and what it tells the user of the reply.

HTTP and the texts of `serde_json` are parameters. As in `Tock.Grind`, a panic is an abort. What is
printed besides is left out.

* `aiBenchWith_submission`: what a run for a registry's challenge submits.
-/

namespace Nockmark
namespace Tock

open Kit.Json (Value Members)

inductive AiStatement where
  | dense
  | canonicalMoe
  deriving DecidableEq

namespace AiStatement

def asStr : AiStatement → String
  | .dense => "dense"
  | .canonicalMoe => "canonical-moe"

def nonceRule : AiStatement → String
  | .dense => "extranonce-le8-v1"
  | .canonicalMoe => "canonical-ordinal-v3"

/-- A target that the canonical shape cannot scale counts as one attempt. -/
def expectedAttemptsPerWin (rnd : ℚ → ℚ) (moeThreshold : Bytes32 → Except String Bytes32) :
    AiStatement → Bytes32 → ℚ
  | .dense, target => Tock.expectedAttemptsPerWin rnd target
  | .canonicalMoe, target => (expectedAttemptsPerMoeWin rnd moeThreshold target).toOption.getD 1

def targetForAttempts (rnd : ℚ → ℚ) (moeThreshold : Bytes32 → Except String Bytes32)
    (s : AiStatement) (attempts : ℕ) : Option Bytes32 :=
  Tock.targetForAttempts attempts (s.expectedAttemptsPerWin rnd moeThreshold)

end AiStatement

/-! ### The challenge -/

structure AiRegistryChallenge where
  nonce : String
  challenge : String
  target : String
  k : UInt64
  nonceRule : String
  statement : Option String
  attempts : Option UInt64
  deriving DecidableEq

/-- `#[serde(default)]` of an optional field: absent and `null` are `None`. -/
def optional {α : Type} (read : Value → Option α) : Option Value → Option (Option α)
  | none => some none
  | some .null => some none
  | some v => (read v).map some

/-- `resp.json::<AiRegistryChallenge>()` -/
def AiRegistryChallenge.fromValue : Value → Option AiRegistryChallenge
  | .obj m => do
    let nonce ← (← m.get "nonce").asStr
    let challenge ← (← m.get "challenge").asStr
    let target ← (← m.get "target").asStr
    let k ← jsonU64 (← m.get "k")
    let nonceRule ← (← m.get "nonce_rule").asStr
    let statement ← optional Value.asStr (m.get "statement")
    let attempts ← optional jsonU64 (m.get "attempts")
    return ⟨nonce, challenge, target, k, nonceRule, statement, attempts⟩
  | _ => none

/-- `trim_end_matches('/')` -/
def trimEndSlashes (base : String) : String :=
  String.ofList (base.toList.reverse.dropWhile (· = '/')).reverse

def aiChallengeUrl (base : String) (statement : AiStatement) (attempts : Option UInt64) : String :=
  trimEndSlashes base ++ "/challenge?track=ai" ++
    (if statement ≠ .dense then "&statement=" ++ statement.asStr else "") ++
    (match attempts with
    | some n => "&attempts=" ++ Kit.dec n.toNat
    | none => "")

/-- A response: the body may fail to arrive. -/
structure HttpResponse where
  status : ℕ
  statusText : String
  text : Except String (List Char)

/-- `is_success` -/
def HttpResponse.isSuccess (resp : HttpResponse) : Bool :=
  decide (200 ≤ resp.status) && decide (resp.status < 300)

/-- `serde_json`, with the texts of its errors and of `{:?}`. -/
structure ClientJson where
  parse : List Char → Except String Value
  shape : Value → String
  debug : String → String

/-- The checks of a challenge against what was asked for. -/
def checkChallenge (json : ClientJson) (statement : AiStatement) (ch : AiRegistryChallenge) :
    Except String AiRegistryChallenge :=
  let asked := json.debug statement.asStr
  if ch.nonceRule ≠ statement.nonceRule then
    let theirs := json.debug ch.nonceRule
    let ours := json.debug statement.nonceRule
    .error s!"registry nonce rule {theirs} != client {ours} for statement {asked} — update tock"
  else
    match ch.statement with
    | some got =>
      if got ≠ statement.asStr then
        let issued := json.debug got
        .error s!"registry issued statement {issued}, asked for {asked}"
      else .ok ch
    | none =>
      if statement ≠ .dense then
        .error s!"registry does not advertise a statement; it predates {asked}"
      else .ok ch

def fetchAiChallenge (json : ClientJson) (post : String → Except String HttpResponse)
    (base : String) (statement : AiStatement) (attempts : Option UInt64) :
    Except String AiRegistryChallenge :=
  let url := aiChallengeUrl base statement attempts
  match post url with
  | .error e => .error s!"POST {url}: {e}"
  | .ok resp =>
    if !resp.isSuccess then .error s!"POST {url}: HTTP {resp.statusText}"
    else
      match resp.text.bind json.parse with
      | .error e => .error s!"bad AI challenge JSON from {url}: {e}"
      | .ok v =>
        match AiRegistryChallenge.fromValue v with
        | none => .error s!"bad AI challenge JSON from {url}: {json.shape v}"
        | some ch => checkChallenge json statement ch

/-! ### The submission -/

structure AiWinSubmission where
  extranonce : UInt64
  certB64 : String

structure AiSubmission where
  nonce : String
  hardware : String
  proverVersion : String
  grindElapsedMs : UInt64
  wins : List AiWinSubmission
  statement : Option String

def AiWinSubmission.value (w : AiWinSubmission) : Value :=
  .obj (.ofList [("extranonce", .num w.extranonce.toNat), ("cert_b64", .str w.certB64)])

/-- The body of a submission; a statement that is not there is left out. -/
def AiSubmission.value (sub : AiSubmission) : Value :=
  let body := Members.ofList
    [("nonce", .str sub.nonce), ("hardware", .str sub.hardware),
      ("prover_version", .str sub.proverVersion),
      ("grind_elapsed_ms", .num sub.grindElapsedMs.toNat),
      ("wins", .arr (sub.wins.map AiWinSubmission.value))]
  match sub.statement with
  | some s => .obj (body.insert "statement" (.str s))
  | none => .obj body

/-- What the client makes of the reply to a submission. -/
def runIdOf (json : ClientJson) (url : String) : Except String HttpResponse → Except String UInt64
  | .error e => .error s!"POST {url}: {e}"
  | .ok resp =>
    match resp.text with
    | .error e => .error s!"POST {url}: reading response body: {e}"
    | .ok text =>
      if !resp.isSuccess then
        match (json.parse text).toOption.bind fun v => (v.index "error").asStr with
        | some msg => .error msg
        | none =>
          .error s!"POST {url}: HTTP {resp.statusText}: {String.ofList (text.take 200)}"
      else
        match json.parse text with
        | .error e => .error s!"POST {url}: bad response JSON: {e}"
        | .ok body =>
          match jsonU64 (body.index "run_id") with
          | some id => .ok id
          | none => .error s!"POST {url}: response missing run_id"

def submitAiRun (json : ClientJson) (post : String → Value → Except String HttpResponse)
    (base : String) (sub : AiSubmission) : Except String UInt64 :=
  let url := trimEndSlashes base ++ "/run?track=ai"
  runIdOf json url (post url sub.value)

/-! ### The ZK track -/

def fetchChallenge (json : ClientJson) (post : String → Except String HttpResponse)
    (base : String) : Except String Challenge :=
  let url := trimEndSlashes base ++ "/challenge"
  match post url with
  | .error e => .error s!"POST {url}: {e}"
  | .ok resp =>
    if !resp.isSuccess then .error s!"POST {url}: HTTP {resp.statusText}"
    else
      match resp.text.bind json.parse with
      | .error e => .error s!"bad challenge JSON from {url}: {e}"
      | .ok v =>
        match Challenge.fromValue v with
        | none => .error s!"bad challenge JSON from {url}: {json.shape v}"
        | some ch => .ok ch

def Submission.value (sub : Submission) : Value :=
  .obj (.ofList [("nonce", .str sub.nonce), ("hardware", .str sub.hardware),
    ("prover_version", .str sub.proverVersion), ("elapsed_ms", .num sub.elapsedMs.toNat),
    ("proofs", .arr (sub.proofs.map .str))])

/-- The reply is read as on the AI track. -/
def submitRun (json : ClientJson) (post : String → Value → Except String HttpResponse)
    (base : String) (sub : Submission) : Except String UInt64 :=
  let url := trimEndSlashes base ++ "/run"
  runIdOf json url (post url sub.value)

/-! ### A run -/

/-- What a host measures of itself: the rate at which it grinds a statement, on the backend that
will, and how long a certificate takes it. -/
structure Calibration where
  attemptsPerSec : AiStatement → Backend → ℚ
  proveSecs : AiStatement → ℚ

/-- The tier that a run asks for; nothing is measured if a flag settles it. -/
def resolveTier (cal : Calibration) (statement : AiStatement) (backend : Backend)
    (attempts : Option UInt64) (explicitTarget : Bool) : Option ℕ :=
  match attempts with
  | some requested => some (grantAttempts requested.toNat)
  | none =>
    if explicitTarget then none
    else some (tierForProveRatio (cal.attemptsPerSec statement backend) (cal.proveSecs statement))

/-- The flags of a run. A registry's challenge overrides all but the tier. -/
structure Flags where
  challenge : Option String
  target : Option String
  tier : Option ℕ
  k : UInt64

/-- `parse_hex32`, of a text that is expected to parse. -/
def hexArg (what s : String) : Except BenchAbort Bytes32 :=
  match parseHex32 s with
  | none => .error .slice
  | some (.error e) => .error (.workload s!"{what}: {e}")
  | some (.ok b) => .ok b

/-- The challenge, target and `k` of a run. -/
def resolve (devChallenge loosest : Bytes32) (targetFor : ℕ → Option Bytes32) (flags : Flags) :
    Option AiRegistryChallenge → Except BenchAbort (Bytes32 × Bytes32 × UInt64)
  | some rc => do
    let challenge ← hexArg "registry challenge" rc.challenge
    let target ← hexArg "registry target" rc.target
    return (challenge, target, rc.k)
  | none => do
    let challenge ← match flags.challenge with
      | some hex => hexArg "bad --challenge" hex
      | none => pure devChallenge
    let target ← match flags.target with
      | some hex => hexArg "bad --target" hex
      | none => pure ((flags.tier.bind targetFor).getD loosest)
    return (challenge, target, flags.k)

/-- `NOCKCHAIN_PIN` -/
def nockchainPin : String := "c8d6b13e"

/-- What `ai-bench` runs on. -/
structure AiHost where
  dense : AiPow
  canonical : Canonical
  gpu : Gpu
  moe : MoeProver
  base64 : List UInt8 → String
  devChallenge : Bytes32
  devMoeChallenge : Bytes32
  rnd : ℚ → ℚ

/-- A run and, for a registry's challenge, its submission. `work` grinds and proves. -/
def aiBenchWith (workload : Option AiRegistryChallenge →
      Except BenchAbort (Bytes32 × Bytes32 × UInt64))
    (work : Bytes32 → Bytes32 → UInt64 → Option (Except BenchAbort (List AiWinSubmission)))
    (hardware statement : Option String) (flags : Flags) (rc : Option AiRegistryChallenge)
    (grindElapsedMs : UInt64) : Option (Except BenchAbort (Option AiSubmission)) :=
  if flags.k = 0 then some (.error .kZero)
  else
    match workload rc with
    | .error a => some (.error a)
    | .ok (challenge, target, k) =>
      match work challenge target k with
      | none => none
      | some (.error a) => some (.error a)
      | some (.ok wins) =>
        match rc with
        | none => some (.ok none)
        | some rc =>
          match hardware with
          | none => some (.error .slice)
          | some hardware =>
            some (.ok (some ⟨rc.nonce, hardware, nockchainPin, grindElapsedMs, wins, statement⟩))

def AiHost.denseWork (host : AiHost) (fuel : ℕ) (challenge target : Bytes32) (k : UInt64) :
    Option (Except BenchAbort (List AiWinSubmission)) :=
  (run host.dense fuel ⟨challenge, target, k⟩).map fun r => r.map fun summary =>
    summary.wins.map fun w => ⟨w.extranonce, host.base64 w.submissionBytes⟩

/-- The target is checked before grinding. -/
def AiHost.moeWork (host : AiHost) (fuel batchAttempts : ℕ) (backend : Backend)
    (challenge target : Bytes32) (k : UInt64) :
    Option (Except BenchAbort (List AiWinSubmission)) :=
  match expectedAttemptsPerMoeWin host.rnd host.canonical.canonicalGrindThreshold target with
  | .error e =>
    some (.error (.workload s!"target is outside the canonical shape's domain: {e}"))
  | .ok _ =>
    (runMoe host.canonical host.gpu host.moe fuel ⟨challenge, target, k⟩ batchAttempts
      backend).map fun r => r.map fun summary =>
        summary.wins.map fun w => ⟨w.ordinal.toUInt64, host.base64 w.submissionBytes⟩

def aiBench (host : AiHost) (fuel : ℕ) (flags : Flags) (rc : Option AiRegistryChallenge)
    (hw : Hardware) (grindElapsedMs : UInt64) : Option (Except BenchAbort (Option AiSubmission)) :=
  aiBenchWith
    (resolve host.devChallenge (.fill 32 0xff)
      (AiStatement.dense.targetForAttempts host.rnd host.canonical.canonicalGrindThreshold) flags)
    (host.denseWork fuel) (hardwareSummary hw) none flags rc grindElapsedMs

/-- `max_moe_target`: all ones, but for the two bytes that `F` shifts out. -/
def maxMoeTarget : Bytes32 := .ofNat 32 (2 ^ 240 - 1)

def aiBenchMoe (host : AiHost) (fuel batchAttempts : ℕ) (backend : Backend) (flags : Flags)
    (rc : Option AiRegistryChallenge) (hw : Hardware) (grindElapsedMs : UInt64) :
    Option (Except BenchAbort (Option AiSubmission)) :=
  aiBenchWith
    (resolve host.devMoeChallenge maxMoeTarget
      (AiStatement.canonicalMoe.targetForAttempts host.rnd
        host.canonical.canonicalGrindThreshold) flags)
    (host.moeWork fuel batchAttempts backend) (backend.hardwareDescriptor hw)
    (some AiStatement.canonicalMoe.asStr) flags rc grindElapsedMs

/-- `tock ai-bench`, of either statement. -/
def AiHost.bench (host : AiHost) (fuel batchAttempts : ℕ) (backend : Backend) (flags : Flags)
    (statement : AiStatement) (rc : Option AiRegistryChallenge) (hw : Hardware)
    (grindElapsedMs : UInt64) : Option (Except BenchAbort (Option AiSubmission)) :=
  match statement with
  | .dense => aiBench host fuel flags rc hw grindElapsedMs
  | .canonicalMoe => aiBenchMoe host fuel batchAttempts backend flags rc hw grindElapsedMs

theorem aiBenchWith_submission {workload : Option AiRegistryChallenge →
      Except BenchAbort (Bytes32 × Bytes32 × UInt64)}
    {work : Bytes32 → Bytes32 → UInt64 → Option (Except BenchAbort (List AiWinSubmission))}
    {hardware statement : Option String} {flags : Flags} {rc : AiRegistryChallenge}
    {grindElapsedMs : UInt64} {sub : AiSubmission}
    (h : aiBenchWith workload work hardware statement flags (some rc) grindElapsedMs =
      some (.ok (some sub))) :
    ∃ challenge target k, workload (some rc) = .ok (challenge, target, k) ∧
      work challenge target k = some (.ok sub.wins) ∧ hardware = some sub.hardware ∧
      sub = ⟨rc.nonce, sub.hardware, nockchainPin, grindElapsedMs, sub.wins, statement⟩ := by
  unfold aiBenchWith at h
  split at h
  · cases h
  split at h
  · cases h
  rename_i challenge target k hload
  split at h
  · cases h
  · cases h
  rename_i wins hwork
  simp only at h
  split at h
  · cases h
  cases h
  exact ⟨challenge, target, k, hload, hwork, rfl, rfl⟩

end Tock
end Nockmark
