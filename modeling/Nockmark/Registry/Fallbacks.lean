import Nockmark.Registry.Evidence
import Nockmark.Registry.FiniteRates
import Nockmark.Registry.Score
import Nockmark.Registry.Tier
import Nockmark.Registry.Torn

/-!
# Registry.Fallbacks

What the scoring of a stored run falls back on, and why it never has to.

A run is written by the handler that had its wins verified, at the target that they were verified
at, and what a later process reads back is a run that some handler wrote. Appends may fail and
tear, processes may stop anywhere, and the configuration may change at every restart.

* `AiRunRecord.Scorable`: what scoring needs of a run. `scorable_of_verified`: a verified run is
  like that.
* `HandlerMove.wrote`: a move appends a challenge, a verified run, or nothing, and maybe not all of it.
* `Server.Scorable`: scorable runs in memory, and pieces of them in the file.
* `fallbacks_unreachable`: so the target parses and scales, and the figures are finite.
-/

namespace Nockmark
namespace Registry

open Kernel (RegistryState)
open Kit.Round (binary64)
open Tock (Bytes32 hex32 parseHex32)

/-- The verifier of canonical MoE accepts no win at a target that it cannot scale. -/
def RejectsUnscaled (env : AiEnv) : Prop :=
  ∀ (challenge target : Bytes32) (ordinal : UInt32) (blob : List UInt8),
    2 ^ 256 ≤ target.toNat * 2 ^ 16 → ∃ e, env.checkMoeCert challenge target ordinal blob = .error e

structure AiRunRecord.Scorable (r : AiRunRecord) : Prop where
  target : ∃ target, r.target = hex32 target ∧
    (r.statement = .canonicalMoe → target.toNat * 2 ^ 16 < 2 ^ 256)
  wins : 1 ≤ r.k
  count : r.k < 2 ^ 64
  elapsed : r.grindElapsedMs ≠ 0

theorem scales_of_verify {env : AiEnv} (henv : RejectsUnscaled env) {challenge target : Bytes32}
    {attempt : UInt64} {blob : List UInt8}
    (h : Statement.canonicalMoe.verify env challenge target attempt blob = .ok ()) :
    target.toNat * 2 ^ 16 < 2 ^ 256 := by
  by_contra hbig
  obtain ⟨e, he⟩ := henv challenge target attempt.toUInt32 blob (not_lt.mp hbig)
  simp only [Statement.verify, verifyMoeSubmission, he] at h
  split at h
  · cases h
  split at h
  · cases h
  split at h <;> cases h

/-- The run has a win, and the target that it was verified at is the run's. -/
theorem scorable_of_verified {env : AiEnv} (henv : RejectsUnscaled env) {aiK : UInt64}
    (hk : aiK ≠ 0) {ev : Evidence} (h : ev.Verified env aiK)
    (helapsed : ev.run.grindElapsedMs ≠ 0) : ev.run.Scorable := by
  have hne : aiK.toNat ≠ 0 := fun h0 => hk (UInt64.toNat_inj.mp h0)
  constructor
  case wins =>
    rw [h.k]
    omega
  case count =>
    rw [h.k]
    exact aiK.toNat_lt
  case elapsed => exact helapsed
  case target =>
    cases hacc : ev.accepted with
    | nil =>
      have hcount := h.count
      rw [hacc] at hcount
      exact absurd hcount.symm hne
    | cons a rest =>
      obtain ⟨hs, -, ht, hv⟩ := h.accepted a (hacc ▸ List.mem_cons_self)
      refine ⟨a.target, ht.symm, ?_⟩
      intro hmoe
      rw [hs, hmoe] at hv
      exact scales_of_verify henv hv

/-! ### What a move writes -/

/-- The file after a move of a handler. -/
inductive Wrote (J : SerdeJson) (s : Server) (p : Phase) : Disk → Prop where
  | nothing : Wrote J s p s.disk
  | challenge (a : Append) (nonce : UInt64) (pending : PendingChallenge) :
      Wrote J s p (append J a s.disk (.challenge nonce pending))
  | run {req : AiRequest} {target : Bytes32} {accepted : List Accepted}
      (hp : p = .verifying req target [] accepted) (a : Append) (pending : PendingChallenge)
      (nowMs : UInt64) :
      Wrote J s p (append J a s.disk (.run (newRun s.ai (req.submission target) pending nowMs)))

section Moves

variable (J : SerdeJson) (env : AiEnv) (zk : ZkEnv) (id : ℕ) (s : Server)

theorem wrote_mint (q : Query) (statement : Statement) (tier : Option Tier) (eny now : Nat) :
    Wrote J s (.minting q statement tier) (s.mint id q statement tier eny now).1.disk := by
  unfold Server.mint
  split <;> exact .nothing

theorem wrote_record (q : Query) (statement : Statement) (tier : Option Tier)
    (nonce nowMs : UInt64) (a : Append) :
    Wrote J s (.recording q statement tier nonce)
      (s.record J env q statement tier nonce nowMs a).1.disk := by
  cases a with
  | written => exact .challenge .written nonce ⟨nowMs, tier.map Tier.target⟩
  | failed n => exact .challenge (.failed n) nonce ⟨nowMs, tier.map Tier.target⟩

theorem wrote_poke (nonce : UInt64) (sub : RunSubmission) (eny now : Nat) :
    Wrote J s (.poking nonce sub) (s.poke zk nonce sub eny now).1.disk := by
  unfold Server.poke
  split <;> exact .nothing

theorem wrote_commit (req : AiRequest) (target : Bytes32) (accepted : List Accepted)
    (nowMs : UInt64) (a : Append) (ioError : String) :
    Wrote J s (.verifying req target [] accepted)
      (s.commit J id req target accepted nowMs a ioError).1.disk := by
  cases hc : challengeStatus s.ai (req.submission target).nonce nowMs with
  | error reason =>
    simp only [Server.commit, commitRun, hc]
    exact .nothing
  | ok pending =>
    cases a with
    | written =>
      simp only [Server.commit, commitRun, hc, Append.ok]
      exact .run rfl .written pending nowMs
    | failed n =>
      simp only [Server.commit, commitRun, hc, Append.ok]
      exact .run rfl (.failed n) pending nowMs

theorem HandlerMove.wrote {J : SerdeJson} {env : AiEnv} {zk : ZkEnv} {id : ℕ} {s : Server}
    {p : Phase} {t : Turn} {r : Server × Phase} (h : HandlerMove J env zk id s p t r) :
    Wrote J s p r.1.disk := by
  cases h with
  | mint q statement tier eny now => exact wrote_mint J id s q statement tier eny now
  | record q statement tier nonce nowMs a =>
    exact wrote_record J env s q statement tier nonce nowMs a
  | poke nonce sub eny now => exact wrote_poke J zk s nonce sub eny now
  | commit req target accepted nowMs a ioError =>
    exact wrote_commit J id s req target accepted nowMs a ioError
  -- the other moves leave the shared state as it is
  | _ => exact .nothing

end Moves

/-! ### Every life -/

def Event.Scorable : Event → Prop
  | .challenge _ _ => True
  | .run r => r.Scorable

/-- Scorable runs in memory and in the file, torn or not. -/
structure Server.Scorable (J : SerdeJson) (s : Server) : Prop where
  runs : ∀ r ∈ s.ai.runs, r.Scorable
  disk : Pieces J Event.Scorable s.disk

/-- A handler that has verified all its wins commits a scorable run. -/
theorem scorable_of_sound {env : AiEnv} (henv : RejectsUnscaled env) {cfg : Config}
    {req : AiRequest} {target : Bytes32} {accepted : List Accepted}
    (h : (Phase.verifying req target [] accepted).Sound env cfg.aiK) (s : AiStore)
    (pending : PendingChallenge) (nowMs : UInt64) :
    (newRun s (req.submission target) pending nowMs).Scorable :=
  scorable_of_verified henv cfg.aiK_ne_zero
    (verified_of_sound cfg.aiK_ne_zero h 0 s pending nowMs) h.1.elapsed

section Step

variable {J : SerdeJson} {env : AiEnv} {id : ℕ} {s : Server} {t : Turn} {p : Phase}

theorem Wrote.scorable {disk : Disk} (hw : Wrote J s p disk) (henv : RejectsUnscaled env)
    (hs : s.Scorable J) (hp : p.Sound env s.config.aiK) : Pieces J Event.Scorable disk := by
  cases hw with
  | nothing => exact hs.disk
  | challenge a nonce pending =>
    have he : (Event.challenge nonce pending).Scorable := trivial
    exact hs.disk.append he a
  | @run req target accepted h a pending nowMs =>
    subst h
    have he : (Event.run (newRun s.ai (req.submission target) pending nowMs)).Scorable :=
      scorable_of_sound henv hp s.ai pending nowMs
    exact hs.disk.append he a

theorem Moved.runs_scorable {r : Server × Phase} (hm : Moved J env id s t p r)
    (henv : RejectsUnscaled env) (hs : ∀ run ∈ s.ai.runs, run.Scorable)
    (hp : p.Sound env s.config.aiK) :
    (∀ run ∈ r.1.ai.runs, run.Scorable) ∧ r.2.Sound env r.1.config.aiK := by
  cases hm with
  | quiet hl => exact ⟨hs, hl.sound hp⟩
  | minted _ _ hp' =>
    rcases hp' with ⟨-, rfl⟩ | ⟨reply, rfl⟩
    · exact ⟨hs, trivial⟩
    · exact ⟨hs, trivial⟩
  | recorded => exact ⟨hs, trivial⟩
  | committed hc hrun =>
    subst hrun
    refine ⟨List.forall_mem_append.mpr ⟨hs, List.forall_mem_singleton.mpr ?_⟩, trivial⟩
    exact scorable_of_sound henv hp s.ai _ _

end Step

/-- The invariant, up or down. -/
def Lives.Scorable (J : SerdeJson) (env : AiEnv) (w : Lives) : Prop :=
  Kit.Program.Holds (Server.Scorable J) (fun _ s p => p.Sound env s.config.aiK) w.threads

theorem Phase.stopped_sound (env : AiEnv) (aiK : UInt64) (p : Phase) : p.stopped.Sound env aiK := by
  cases p <;> trivial

theorem scorable_replay {es : List Event} (h : ∀ e ∈ es, e.Scorable) :
    ∀ r ∈ (replay es).runs, r.Scorable :=
  fun _ hr => h _ (mem_runs_replay hr)

section Lives

variable {J : SerdeJson} {env : AiEnv} {zk : ZkEnv} {w : Lives}

theorem Lives.Scorable.restart (hJ : J.RejectsTorn) (h : w.Scorable J env) (kernel : RegistryState)
    (config : Config) : (w.restart J kernel config).Scorable J env := by
  simp only [Lives.restart]
  split
  · rename_i ai hload
    obtain ⟨text, ht⟩ := text_of_load hload
    obtain ⟨es, hes, hP, -⟩ := h.shared.disk.load hJ ht
    rw [hload] at hes
    cases hes
    exact ⟨⟨scorable_replay hP, h.shared.disk⟩, fun id => Phase.stopped_sound env _ _⟩
  · exact h

theorem Lives.Scorable.turn (henv : RejectsUnscaled env) (h : w.Scorable J env) (id : ℕ)
    (t : Turn) : Kit.Program.Holds (Server.Scorable J) (fun _ s p => p.Sound env s.config.aiK)
      ((handlers J env zk).move w.threads id t) := by
  have hp := h.thread id
  have hm := moved_step J env zk id w.threads.shared (w.threads.thread id) t
  have hw := (handlerMove_step J env zk id w.threads.shared (w.threads.thread id) t).wrote
  obtain ⟨hruns, hsound⟩ := hm.runs_scorable henv h.shared.runs hp
  refine h.move ⟨⟨hruns, hw.scorable henv h.shared hp⟩, hsound⟩ ?_
  intro j _ hj
  show Phase.Sound env (handlerStep J env zk id _ _ t).1.config.aiK _
  rw [hm.config]
  exact hj

theorem scorable_of_reach (hJ : J.RejectsTorn) (henv : RejectsUnscaled env)
    {kernel : RegistryState} {config : Config}
    (h : (lives J env zk kernel config).Reach Kit.Machine.free w) : w.Scorable J env := by
  refine h.inv ?_ ?_
  · exact ⟨⟨nofun, Pieces.none J _⟩, fun _ => trivial⟩
  · intro w i hw _
    cases i with
    | restart kernel config => exact hw.restart hJ kernel config
    | turn id t =>
      show Lives.Scorable J env (if w.up then _ else w)
      split
      · exact hw.turn henv id t
      · exact hw

end Lives

/-! ### Scores -/

/-- How a stored run is scored: at the target that its text is of, and without a fallback. -/
structure AiRunRecord.ScoredAt (moeThreshold : Bytes32 → Except String Bytes32) (r : AiRunRecord)
    (target : Bytes32) : Prop where
  parsed : parseHex32 r.target = some (.ok target)
  scales : r.statement = .canonicalMoe → target.toNat * 2 ^ 16 < 2 ^ 256
  credited : r.statement = .canonicalMoe →
    ∃ attempts, Tock.expectedAttemptsPerMoeWin binary64 moeThreshold target = .ok attempts
  wins : 1 ≤ r.k
  elapsed : 1 ≤ r.grindElapsedMs.toNat
  /-- The error bar divides by it. -/
  errorBar : 0 < √(r.k : ℝ)
  entry : ∃ e, toAiEntry binary64 moeThreshold r = some e ∧
    e.rates = rates binary64 moeThreshold r.statement r.k target e.serverWindowMs
      r.grindElapsedMs.toNat ∧
    ∃ figures, doubleRates moeThreshold r.statement r.k target e.serverWindowMs
      r.grindElapsedMs.toNat = some figures ∧ figures.Finite

theorem AiRunRecord.Scorable.scoredAt {moeThreshold : Bytes32 → Except String Bytes32}
    (hc : CanonicalThreshold moeThreshold) {r : AiRunRecord} (h : r.Scorable) :
    ∃ target, r.ScoredAt moeThreshold target := by
  obtain ⟨target, hhex, hscales⟩ := h.target
  have hparse : parseHex32 r.target = some (.ok target) := by rw [hhex, Tock.parseHex32_hex32]
  have helapsed : r.grindElapsedMs.toNat ≠ 0 := fun h0 => h.elapsed (UInt64.toNat_inj.mp h0)
  have hwins : (0 : ℝ) < r.k := by exact_mod_cast h.wins
  have hwindow : max (satSub r.submittedAtMs r.issuedAtMs).toNat 1 < 2 ^ 64 := by
    have := (satSub r.submittedAtMs r.issuedAtMs).toNat_lt
    omega
  refine ⟨target, ?_⟩
  constructor
  case parsed => exact hparse
  case scales => exact hscales
  case credited =>
    intro hmoe
    obtain ⟨theta, hok, -⟩ := (hc target).1 (hscales hmoe)
    exact ⟨_, by rw [Tock.expectedAttemptsPerMoeWin, hok]⟩
  case wins => exact h.wins
  case elapsed => omega
  case errorBar => exact Real.sqrt_pos.mpr hwins
  case entry =>
    refine ⟨_, by rw [toAiEntry, hparse]; rfl, rfl, ?_⟩
    exact doubleRates_finite moeThreshold r.statement target h.wins h.count hwindow
      r.grindElapsedMs.toNat_lt

/-- In every life of the server, whatever tears, stops, interleaves and is configured anew, each
stored run is scored at the target that its wins were verified at. -/
theorem fallbacks_unreachable {J : SerdeJson} {env : AiEnv} {zk : ZkEnv} {kernel : RegistryState}
    {config : Config} (hJ : J.RejectsTorn) (hc : CanonicalThreshold env.moeThreshold)
    (henv : RejectsUnscaled env) {w : Lives}
    (h : (lives J env zk kernel config).Reach Kit.Machine.free w) :
    ∀ r ∈ w.threads.shared.ai.runs, ∃ target, r.ScoredAt env.moeThreshold target :=
  fun r hr => ((scorable_of_reach hJ henv h).shared.runs r hr).scoredAt hc

/-- Libraries that accept everything but wins at a target that does not scale. -/
def scaling : AiEnv :=
  { lenient with
    checkMoeCert := fun _ target _ _ =>
      if target.toNat * 2 ^ 16 < 2 ^ 256 then .ok () else .error "target overflows" }

/-- A registry that asks for one win. -/
def oneWin (target : Bytes32) : Config :=
  { zkConfig 8 with aiTarget := target, aiMoeTarget := target }

/-- `?track=ai` -/
def untieredQuery : Query
  | "track" => some "ai"
  | _ => none

def moeBody : Body where
  asRun := .error "not a ZK run"
  asAiRun := .ok ⟨"7", "host", "0.1.0", 1, [⟨0, ""⟩], some "canonical-moe"⟩

/-- A dense challenge, won under canonical MoE. -/
def moeLife : List Life :=
  [.turn 0 (.newChallenge untieredQuery), .turn 0 (.mint 7 0), .turn 0 (.record 1000 .written),
    .turn 1 (.submit untieredQuery moeBody), .turn 1 (.check 2000), .turn 1 (.context none),
    .turn 1 (.verify none), .turn 1 (.commit 3000 .written "")]

def moeLives : Lives :=
  let m := lives .compact scaling (provesOnly "7") Kernel.init (oneWin (.ofNat 32 1))
  m.run m.init moeLife

/-- Its run is read back by a process with a target that does not scale. -/
def moeReloaded : Lives :=
  moeLives.step .compact scaling (provesOnly "7") (.restart Kernel.init (oneWin maxTarget))

theorem reach_moeReloaded : (lives .compact scaling (provesOnly "7") Kernel.init
    (oneWin (.ofNat 32 1))).Reach Kit.Machine.free moeReloaded := by
  have h : (lives .compact scaling (provesOnly "7") Kernel.init
      (oneWin (.ofNat 32 1))).Reach Kit.Machine.free moeLives :=
    Kit.Machine.reach_run_free _ moeLife
  exact reach_step h trivial

theorem runs_moeReloaded :
    ∃ r ∈ moeReloaded.threads.shared.ai.runs, r.statement = .canonicalMoe := by
  have hlog : LogOf .compact moeLives.threads.shared.disk moeLives.threads.shared.log := by
    rw [LogOf]
    decide +kernel
  have hrun : ∃ r ∈ (replay moeLives.threads.shared.log).runs, r.statement = .canonicalMoe := by
    decide +kernel
  rw [moeReloaded, Lives.step, Lives.restart]
  simp only [load_log hlog]
  exact hrun

theorem fallbacks_unreachable_moe : ∃ r ∈ moeReloaded.threads.shared.ai.runs,
    r.statement = .canonicalMoe ∧ ∃ target, r.ScoredAt scaling.moeThreshold target := by
  have henv : RejectsUnscaled scaling := by
    intro challenge target ordinal blob h
    exact ⟨"target overflows", if_neg (Nat.not_lt.mpr h)⟩
  obtain ⟨r, hr, hmoe⟩ := runs_moeReloaded
  exact ⟨r, hr, hmoe, fallbacks_unreachable compact_rejectsTorn scaledThreshold_canonical henv
    reach_moeReloaded r hr⟩

end Registry
end Nockmark
