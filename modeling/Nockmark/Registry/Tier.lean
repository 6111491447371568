import Nockmark.Registry.Board
import Nockmark.Registry.Lives

/-!
# Registry.Tier

One target for the whole life of a tiered challenge, through restarts of the server and changes of
its configuration.

The target is derived once and then copied: to the reply, to the log, to the pending challenge,
to the handler of a submission and to the run. The invariant speaks of the log, which is what a
restart keeps: every event of an issued nonce is priced at the tier that was issued.

* `DistinctNonces`: the histories that this is about.
* `Server.Tiered`, `Phase.Tiered`: the invariant of the shared state and of each handler.
* `tier_kept`: all copies of an issued tier's target agree, and requests that are malformed leave
  everything as it was.
-/

namespace Nockmark
namespace Registry

open Kit.Json (Value Members)
open Kernel (RegistryState)
open Tock (Bytes32 hex32 parseHex32)

/-- Minted nonces are distinct, and appends succeed. -/
def DistinctNonces (w : Lives) : Life → Prop
  | .turn _ t => t.Written ∧ ∀ eny now nonce kernel, t = .mint eny now →
    Kernel.mintChallenge w.threads.shared.kernel eny now = (.ok nonce, kernel) →
    nonce ∉ w.threads.shared.minted.map Prod.snd
  | .restart _ _ => True

/-! ### The invariant -/

def Event.PricedAt (target : Bytes32) : Event → Prop
  | .challenge _ p => p.target = some target
  | .run r => r.target = hex32 target

/-- An issued challenge is in the log, and its tier prices all that the log has of its nonce. -/
structure Issue.Kept (env : AiEnv) (log : List Event) (iss : Issue) : Prop where
  track : isAiTrack iss.q = true
  request : validateChallenge env iss.q = .ok (iss.statement, iss.tier)
  reply : ∃ cfg, iss.reply = aiChallengeReply env cfg iss.statement iss.nonce iss.tier
  event : ∃ t, .challenge iss.nonce ⟨t, iss.tier.map Tier.target⟩ ∈ log
  priced : ∀ tier, iss.tier = some tier → ∀ e ∈ log, e.nonce = iss.nonce → e.PricedAt tier.target

structure Server.Tiered (J : SerdeJson) (env : AiEnv) (s : Server) : Prop where
  log : LogOf J s.disk s.log
  ai : s.ai = replay s.log
  distinct : (s.minted.map Prod.snd).Nodup
  events : ∀ e ∈ s.log, e.nonce ∈ s.minted.map Prod.snd
  issues : ∀ iss ∈ s.issued, iss.Kept env s.log

/-- Wins for `nonce` may be verified at `target`: the nonce is in the log, and if it was issued with
a tier, this is the tier's target. -/
structure Prices (log : List Event) (issued : List Issue) (nonce : UInt64) (target : Bytes32) :
    Prop where
  logged : ∃ p, .challenge nonce p ∈ log
  issued : ∀ iss ∈ issued, iss.nonce = nonce → ∀ tier, iss.tier = some tier → target = tier.target

def Phase.Tiered (env : AiEnv) (id : ℕ) (s : Server) : Phase → Prop
  | .minting q statement tier => validateChallenge env q = .ok (statement, tier)
  | .recording q statement tier nonce =>
    isAiTrack q = true ∧ validateChallenge env q = .ok (statement, tier) ∧
      (id, nonce) ∈ s.minted ∧ ∀ e ∈ s.log, e.nonce ≠ nonce
  | .preparing req target => Prices s.log s.issued req.nonce target
  | .verifying req target _ accepted =>
    Prices s.log s.issued req.nonce target ∧ ∀ a ∈ accepted, a.target = target
  | _ => True

/-- The status check finds the target that the challenge was issued at. -/
theorem prices_of_status {J : SerdeJson} {env : AiEnv} {s : Server} (hs : s.Tiered J env)
    {nonce nowMs : UInt64} {p : PendingChallenge} (h : challengeStatus s.ai nonce nowMs = .ok p)
    (target : Bytes32) : Prices s.log s.issued nonce (p.target.getD target) := by
  obtain ⟨-, hl, -⟩ := challengeStatus_eq_ok h
  rw [hs.ai] at hl
  have hlog := lookup_replay hl
  refine ⟨⟨p, hlog⟩, ?_⟩
  intro iss hiss hn tier ht
  have hp : p.target = some tier.target := (hs.issues iss hiss).priced tier ht _ hlog hn.symm
  rw [hp]
  rfl

theorem Local.tiered {J : SerdeJson} {env : AiEnv} {s : Server} (hs : s.Tiered J env) {p p' : Phase}
    (h : Local env s.toAppState p p') {id : ℕ} (hp : p.Tiered env id s) : p'.Tiered env id s := by
  cases h with
  | stay => exact hp
  | gone => trivial
  | answer => trivial
  | newChallenge hq => exact hq
  | submitZk => trivial
  | submit => trivial
  | check hc => exact prices_of_status hs hc _
  | prepare => exact ⟨hp, nofun⟩
  | verify =>
    exact ⟨hp.1, List.forall_mem_append.mpr ⟨hp.2, List.forall_mem_singleton.mpr rfl⟩⟩

/-! ### One more event -/

theorem Issue.Kept.append {env : AiEnv} {log : List Event} {iss : Issue} (h : iss.Kept env log)
    {e : Event} (he : ∀ tier, iss.tier = some tier → e.nonce = iss.nonce →
      e.PricedAt tier.target) : iss.Kept env (log ++ [e]) := by
  obtain ⟨t, ht⟩ := h.event
  refine ⟨h.track, h.request, h.reply, ⟨t, List.mem_append_left _ ht⟩, ?_⟩
  intro tier htier
  exact List.forall_mem_append.mpr
    ⟨h.priced tier htier, List.forall_mem_singleton.mpr (he tier htier)⟩

theorem Prices.append {log : List Event} {issued issued' : List Issue} {nonce : UInt64}
    {target : Bytes32} (h : Prices log issued nonce target) (e : Event)
    (hi : ∀ iss ∈ issued', iss ∈ issued ∨ ∀ e' ∈ log, e'.nonce ≠ iss.nonce) :
    Prices (log ++ [e]) issued' nonce target := by
  obtain ⟨p, hp⟩ := h.logged
  refine ⟨⟨p, List.mem_append_left _ hp⟩, ?_⟩
  intro iss hiss hn
  rcases hi iss hiss with hmem | hno
  · exact h.issued iss hmem hn
  · exact absurd hn.symm (hno _ hp)

/-- An event of a nonce that the handler did not mint disturbs nothing. -/
theorem Phase.Tiered.append {env : AiEnv} {id : ℕ} {s s' : Server} {p : Phase}
    (hp : p.Tiered env id s) {e : Event} (hminted : s'.minted = s.minted)
    (hlog : s'.log = s.log ++ [e])
    (hne : ∀ nonce, (id, nonce) ∈ s.minted → (∀ e' ∈ s.log, e'.nonce ≠ nonce) → e.nonce ≠ nonce)
    (hi : ∀ iss ∈ s'.issued, iss ∈ s.issued ∨ ∀ e' ∈ s.log, e'.nonce ≠ iss.nonce) :
    p.Tiered env id s' := by
  cases p with
  | idle => trivial
  | minting q statement tier => exact hp
  | recording q statement tier nonce =>
    obtain ⟨hq, hv, hm, hno⟩ := hp
    refine ⟨hq, hv, hminted ▸ hm, ?_⟩
    rw [hlog]
    exact List.forall_mem_append.mpr ⟨hno, List.forall_mem_singleton.mpr (hne nonce hm hno)⟩
  | poking => trivial
  | checking => trivial
  | preparing req target =>
    show Prices s'.log _ _ _
    rw [hlog]
    exact Prices.append hp e hi
  | verifying req target rest accepted =>
    refine ⟨?_, hp.2⟩
    rw [hlog]
    exact hp.1.append e hi
  | answered => trivial
  | gone => trivial

section Moves

variable {J : SerdeJson} {env : AiEnv} {id : ℕ} {s : Server} {t : Turn} {p : Phase}
  {r : Server × Phase}

theorem Server.Tiered.record (hs : s.Tiered J env) {q : Query} {statement : Statement}
    {tier : Option Tier} {nonce : UInt64}
    (hp : (Phase.recording q statement tier nonce).Tiered env id s) (nowMs : UInt64) :
    ({ s with
        ai := s.ai.apply (.challenge nonce ⟨nowMs, tier.map Tier.target⟩)
        disk := append J .written s.disk (.challenge nonce ⟨nowMs, tier.map Tier.target⟩)
        log := s.log ++ [.challenge nonce ⟨nowMs, tier.map Tier.target⟩]
        issued :=
          ⟨q, statement, nonce, tier, aiChallengeReply env s.config statement nonce tier⟩ ::
            s.issued } : Server).Tiered J env := by
  obtain ⟨hq, hv, hm, hno⟩ := hp
  constructor
  case log => exact hs.log.append _
  case ai => rw [replay_append, ← hs.ai]
  case distinct => exact hs.distinct
  case events =>
    refine List.forall_mem_append.mpr ⟨hs.events, List.forall_mem_singleton.mpr ?_⟩
    exact List.mem_map_of_mem (f := Prod.snd) hm
  case issues =>
    intro iss hiss
    rcases List.mem_cons.mp hiss with rfl | hiss
    · refine ⟨hq, hv, ⟨s.config, rfl⟩, ⟨nowMs, ?_⟩, ?_⟩
      · exact List.mem_append_right _ (List.mem_singleton.mpr rfl)
      intro tier' ht
      refine List.forall_mem_append.mpr ⟨?_, List.forall_mem_singleton.mpr fun _ => ?_⟩
      · intro e he hn
        exact absurd hn (hno e he)
      · exact congrArg (Option.map Tier.target) ht
    · refine (hs.issues iss hiss).append ?_
      intro _ _ hn
      obtain ⟨t, ht⟩ := (hs.issues iss hiss).event
      exact absurd hn.symm (hno _ ht)

theorem Server.Tiered.commit (hs : s.Tiered J env) {req : AiRequest} {target : Bytes32}
    (hp : Prices s.log s.issued req.nonce target) {nowMs : UInt64} {pending : PendingChallenge}
    {run : AiRunRecord} (hrun : run = newRun s.ai (req.submission target) pending nowMs)
    (evidence : List Evidence) :
    ({ s with
        ai := s.ai.apply (.run run)
        disk := append J .written s.disk (.run run)
        log := s.log ++ [.run run]
        evidence } : Server).Tiered J env := by
  subst hrun
  obtain ⟨pc, hpc⟩ := hp.logged
  constructor
  case log => exact hs.log.append _
  case ai => rw [replay_append, ← hs.ai]
  case distinct => exact hs.distinct
  case events =>
    refine List.forall_mem_append.mpr ⟨hs.events, List.forall_mem_singleton.mpr ?_⟩
    exact hs.events (.challenge req.nonce pc) hpc
  case issues =>
    intro iss hiss
    refine (hs.issues iss hiss).append ?_
    intro tier ht hn
    exact congrArg hex32 (hp.issued iss hiss hn.symm tier ht)

theorem Moved.tiered (hm : Moved J env id s t p r) (hw : t.Written)
    (hfresh : ∀ eny now nonce kernel, t = .mint eny now →
      Kernel.mintChallenge s.kernel eny now = (.ok nonce, kernel) →
      nonce ∉ s.minted.map Prod.snd)
    (hs : s.Tiered J env) (hp : p.Tiered env id s) :
    r.1.Tiered J env ∧ r.2.Tiered env id r.1 := by
  cases hm with
  | quiet hl kernel disk hd =>
    cases hd hw
    exact ⟨⟨hs.log, hs.ai, hs.distinct, hs.events, hs.issues⟩, hl.tiered hs hp⟩
  | minted ht h hp' =>
    rename_i q statement tier eny now nonce kernel p'
    have hn := hfresh eny now nonce kernel ht h
    refine ⟨⟨hs.log, hs.ai, ?_, ?_, hs.issues⟩, ?_⟩
    · exact List.nodup_cons.mpr ⟨hn, hs.distinct⟩
    · intro e he
      exact List.mem_cons_of_mem _ (hs.events e he)
    · rcases hp' with ⟨hq, rfl⟩ | ⟨reply, rfl⟩
      · refine ⟨hq, hp, List.mem_cons_self, ?_⟩
        intro e he heq
        exact hn (heq ▸ hs.events e he)
      · trivial
  | recorded q statement tier nonce nowMs => exact ⟨hs.record hp nowMs, trivial⟩
  | committed hc hrun => exact ⟨hs.commit hp.1 hrun _, trivial⟩

/-- The other handlers: a nonce has one minter, so no event is of a nonce that they minted. -/
theorem Moved.tiered_other (hm : Moved J env id s t p r) (hs : s.Tiered J env)
    (hp : p.Tiered env id s) {j : ℕ} (hj : j ≠ id) {p' : Phase}
    (hp' : p'.Tiered env j s) : p'.Tiered env j r.1 := by
  cases hm with
  | quiet => exact hp'
  | minted =>
    cases p' with
    | recording => exact ⟨hp'.1, hp'.2.1, List.mem_cons_of_mem _ hp'.2.2.1, hp'.2.2.2⟩
    | _ => exact hp'
  | recorded q statement tier nonce nowMs =>
    obtain ⟨-, -, hm, hno⟩ := hp
    refine hp'.append rfl rfl ?_ ?_
    · rintro nonce' hm' - rfl
      exact hj (congrArg Prod.fst (List.inj_on_of_nodup_map hs.distinct hm' hm rfl))
    · intro iss hiss
      rcases List.mem_cons.mp hiss with rfl | hiss
      · exact .inr hno
      · exact .inl hiss
  | committed _ hrun =>
    subst hrun
    obtain ⟨pc, hpc⟩ := hp.1.logged
    refine hp'.append rfl rfl ?_ fun iss hiss => .inl hiss
    intro nonce _ hno
    exact hno (.challenge _ pc) hpc

end Moves

/-! ### Every history -/

theorem Phase.stopped_tiered {env : AiEnv} {id : ℕ} {s : Server} (p : Phase) :
    p.stopped.Tiered env id s := by
  cases p <;> trivial

/-- The invariant of the handlers and what they share, up or down. -/
def Lives.Tiered (J : SerdeJson) (env : AiEnv) (w : Lives) : Prop :=
  Kit.Program.Holds (Server.Tiered J env) (fun id s p => p.Tiered env id s) w.threads

theorem Lives.Tiered.restart {J : SerdeJson} {env : AiEnv} {w : Lives} (h : w.Tiered J env)
    (kernel : RegistryState) (config : Config) : (w.restart J kernel config).Tiered J env := by
  have hs := h.shared
  simp only [Lives.restart, load_log hs.log]
  refine ⟨⟨hs.log, rfl, hs.distinct, hs.events, hs.issues⟩, ?_⟩
  intro id
  exact Phase.stopped_tiered _

theorem tiered_of_reach {J : SerdeJson} {env : AiEnv} {zk : ZkEnv} {kernel : RegistryState}
    {config : Config} {w : Lives}
    (h : (lives J env zk kernel config).Reach DistinctNonces w) : w.Tiered J env := by
  refine h.inv ?_ ?_
  · exact ⟨⟨rfl, rfl, .nil, nofun, nofun⟩, fun _ => trivial⟩
  · intro w i hw hg
    cases i with
    | restart kernel config => exact hw.restart kernel config
    | turn id t =>
      show Lives.Tiered J env (if w.up then _ else w)
      split
      · have hm := moved_step J env zk id w.threads.shared (w.threads.thread id) t
        refine Kit.Program.Holds.move hw ?_ ?_
        · exact hm.tiered hg.1 hg.2 hw.shared (hw.thread id)
        · exact fun j hj hp => hm.tiered_other hw.shared (hw.thread id) hj hp
      · exact hw

/-- The copies of the target of an issued challenge. -/
structure Issue.KeepsTarget (w : Lives) (iss : Issue) (target : Bytes32) : Prop where
  returned : (iss.reply.body.index "target").asStr = some (hex32 target)
  kept : iss.nonce ∈ w.threads.shared.ai.used ∨
    ∃ p, w.threads.shared.ai.pending.lookup iss.nonce = some p
  stored : ∀ p, w.threads.shared.ai.pending.lookup iss.nonce = some p → p.target = some target
  verified : ∀ id req T rest accepted, w.threads.thread id = .verifying req T rest accepted →
    req.nonce = iss.nonce → T = target ∧ ∀ a ∈ accepted, a.target = target
  scored : ∀ r ∈ w.threads.shared.ai.runs, r.nonce = iss.nonce →
    parseHex32 r.target = some (.ok target) ∧
    ∀ (rnd : ℚ → ℚ) (moeThreshold : Bytes32 → Except String Bytes32), ∃ e,
      toAiEntry rnd moeThreshold r = some e ∧
      e.rates = rates rnd moeThreshold r.statement r.k target e.serverWindowMs
        r.grindElapsedMs.toNat

theorem aiChallengeReply_target (env : AiEnv) (cfg : Config) (s : Statement) (nonce : UInt64)
    (tier : Tier) : ((aiChallengeReply env cfg s nonce (some tier)).body.index "target").asStr =
      some (hex32 tier.target) := by
  simp [aiChallengeReply, Reply.ok, Value.index, Value.asStr, Members.ofList]

theorem keepsTarget {J : SerdeJson} {env : AiEnv} {w : Lives} (h : w.Tiered J env) {iss : Issue}
    (hiss : iss ∈ w.threads.shared.issued) {tier : Tier} (ht : iss.tier = some tier) :
    iss.KeepsTarget w tier.target := by
  have hs := h.shared
  have hk := hs.issues iss hiss
  constructor
  case returned =>
    obtain ⟨cfg, hr⟩ := hk.reply
    rw [hr, ht]
    exact aiChallengeReply_target env cfg iss.statement iss.nonce tier
  case kept =>
    obtain ⟨t, he⟩ := hk.event
    rw [hs.ai]
    exact pending_or_used he
  case stored =>
    intro p hp
    rw [hs.ai] at hp
    exact hk.priced tier ht _ (lookup_replay hp) rfl
  case verified =>
    intro id req T rest accepted hid hn
    have hp := h.thread id
    rw [hid] at hp
    have hT := hp.1.issued iss hiss hn.symm tier ht
    exact ⟨hT, fun a ha => (hp.2 a ha).trans hT⟩
  case scored =>
    intro r hr hn
    rw [hs.ai] at hr
    have hhex : r.target = hex32 tier.target := hk.priced tier ht _ (mem_runs_replay hr) hn
    have hparse : parseHex32 r.target = some (.ok tier.target) := by
      rw [hhex, Tock.parseHex32_hex32]
    refine ⟨hparse, ?_⟩
    intro rnd moeThreshold
    exact ⟨_, by rw [toAiEntry, hparse]; rfl, rfl⟩

/-- One target for life. A request of the AI track that asks for a tier goes on to the mint with
the tier of its statement. In every history with distinct nonces and successful appends, whatever
is minted, submitted, restarted and configured anew, the copies of an issued tier's target agree.
A request with a malformed statement or tier is answered at once, and changes nothing. -/
theorem tier_kept {J : SerdeJson} {env : AiEnv} {zk : ZkEnv} {kernel : RegistryState}
    {config : Config} (hlaw : Tock.ThresholdLaw env.moeThreshold) {w : Lives}
    (h : (lives J env zk kernel config).Reach DistinctNonces w) :
    (∀ id q s n, w.up = true → w.threads.thread id = .idle → isAiTrack q = true →
      statementFromQuery env.debug q = .ok s → attemptsFromQuery q = .ok (some n) →
      ∃ tier, IsTierOf env s n tier ∧
        (w.step J env zk (.turn id (.newChallenge q))).threads.thread id =
          .minting q s (some tier)) ∧
    (∀ iss ∈ w.threads.shared.issued, ∀ n, attemptsFromQuery iss.q = .ok (some n) →
      ∃ tier, statementFromQuery env.debug iss.q = .ok iss.statement ∧
        IsTierOf env iss.statement n tier ∧ iss.KeepsTarget w tier.target) ∧
    ∀ id q e, w.up = true → w.threads.thread id = .idle → isAiTrack q = true →
      (statementFromQuery env.debug q = .error e ∨ attemptsFromQuery q = .error e) →
      ∃ e', let w' := w.step J env zk (.turn id (.newChallenge q))
        w'.threads.shared = w.threads.shared ∧ w'.threads.thread id = .answered (bad e') ∧
        ∀ t, w'.step J env zk (.turn id t) = w' := by
  refine ⟨?_, ?_, ?_⟩
  · intro id q s n hup hid hq hs hn
    obtain ⟨tier, hv, ht⟩ := validateChallenge_tier hlaw hq hs hn
    refine ⟨tier, ht, ?_⟩
    rw [(step_newChallenge J env zk hup hid q).2.2, newChallenge, hv]
  · intro iss hiss n hn
    have ht := tiered_of_reach h
    have hk := ht.shared.issues iss hiss
    obtain ⟨hs, tier, heq, htier⟩ := validateChallenge_eq_ok hk.track hk.request hn
    exact ⟨tier, hs, htier, keepsTarget ht hiss heq⟩
  · intro id q e hup hid hq he
    obtain ⟨e', hv⟩ := validateChallenge_bad hq he
    obtain ⟨-, hshared, hthread⟩ := step_newChallenge J env zk hup hid q
    rw [newChallenge, hv] at hthread
    exact ⟨e', hshared, hthread, step_answered J env zk hthread⟩

/-- Libraries that accept everything. -/
def lenient : AiEnv where
  base64 _ := some [0]
  blake3 _ := maxTarget
  debug := id
  decodeCert _ := .ok (List.replicate 8 0)
  decodeMoeCert _ := .ok 0
  checkCert _ _ _ := .ok ()
  checkMoeCert _ _ _ _ := .ok ()
  moeThreshold := Tock.scaledThreshold

/-- `?track=ai&statement=canonical-moe&attempts=5000` -/
def tieredQuery : Query
  | "track" => some "ai"
  | "statement" => some "canonical-moe"
  | "attempts" => some "5000"
  | _ => none

def sampleConfig (target : Bytes32) : Config := ⟨8, 4, by decide, target, target⟩

theorem reach_step {J : SerdeJson} {env : AiEnv} {zk : ZkEnv} {kernel : RegistryState}
    {config : Config} {G : Lives → Life → Prop} {w : Lives}
    (h : (lives J env zk kernel config).Reach G w) {i : Life} (hi : G w i) :
    (lives J env zk kernel config).Reach G (w.step J env zk i) := .step h hi

def bootedTier : Lives := ⟨true, .boot Kernel.init (sampleConfig maxTarget), fun _ => .idle⟩

def askedTier : Lives :=
  bootedTier.step .compact lenient (provesOnly "7") (.turn 0 (.newChallenge tieredQuery))

def mintedTier : Lives := askedTier.step .compact lenient (provesOnly "7") (.turn 0 (.mint 7 0))

def issuedTier : Lives :=
  mintedTier.step .compact lenient (provesOnly "7") (.turn 0 (.record 1000 .written))

/-- A tiered challenge is issued, and the server restarted with other targets. -/
def restartedTier : Lives :=
  issuedTier.step .compact lenient (provesOnly "7")
    (.restart Kernel.init (sampleConfig (.ofNat 32 1)))

theorem reach_restartedTier :
    (lives .compact lenient (provesOnly "7") Kernel.init (sampleConfig maxTarget)).Reach
      DistinctNonces restartedTier := by
  have hasked : DistinctNonces bootedTier (.turn 0 (.newChallenge tieredQuery)) :=
    ⟨trivial, nofun⟩
  have hminted : DistinctNonces askedTier (.turn 0 (.mint 7 0)) :=
    ⟨trivial, fun _ _ _ _ _ _ => List.not_mem_nil⟩
  have hissued : DistinctNonces mintedTier (.turn 0 (.record 1000 .written)) := ⟨rfl, nofun⟩
  have h : (lives .compact lenient (provesOnly "7") Kernel.init (sampleConfig maxTarget)).Reach
      DistinctNonces issuedTier := reach_step (reach_step (reach_step .init hasked) hminted) hissued
  exact reach_step h (by trivial)

theorem issued_restartedTier :
    ∃ iss ∈ restartedTier.threads.shared.issued, iss.q = tieredQuery := by
  obtain ⟨tier, hv, -⟩ := @validateChallenge_tier lenient Tock.scaledThreshold_law tieredQuery rfl
    .canonicalMoe rfl 5000 rfl
  have hnew : newChallenge lenient tieredQuery =
      .minting tieredQuery .canonicalMoe (some tier) := by
    rw [newChallenge, hv]
  obtain ⟨hup, -, hthread⟩ :=
    @step_newChallenge .compact lenient (provesOnly "7") bootedTier 0 rfl rfl tieredQuery
  rw [hnew] at hthread
  have hissued := issued_of_minting .compact lenient (provesOnly "7") hup hthread rfl 7 0 1000
  rw [restartedTier, step_restart_issued, issuedTier, mintedTier, askedTier, hissued]
  exact ⟨_, List.mem_cons_self, rfl⟩

theorem tier_kept_restart :
    ∃ iss ∈ restartedTier.threads.shared.issued, ∃ tier,
      IsTierOf lenient iss.statement 5000 tier ∧ iss.KeepsTarget restartedTier tier.target := by
  obtain ⟨iss, hiss, hq⟩ := issued_restartedTier
  have ha : attemptsFromQuery iss.q = .ok (some 5000) := by
    rw [hq]
    rfl
  obtain ⟨tier, -, ht, hk⟩ :=
    (tier_kept Tock.scaledThreshold_law reach_restartedTier).2.1 iss hiss 5000 ha
  exact ⟨iss, hiss, tier, ht, hk⟩

end Registry
end Nockmark
