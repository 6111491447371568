import Nockmark.Registry.Atomic
import Nockmark.Registry.HonestAi

/-!
# Registry.Settled

What an honest `tock ai-bench --submit` run is answered, whatever else the server does meanwhile.

Between the challenge and the answer other handlers mint, record and commit. The challenge stays
known, and pending at its own target until a run uses it; so the checks of the submission can fail
for a nonce that was used, or for the time, and for nothing else.

* `Server.Standing`: what the server keeps of the challenges that it issued.
* `Phase.Bound`: the ways of a handler whose wins all verify.
* `honest_ai_run`: in every interleaving the client is told the id of its recorded run, unless
  another run used the nonce, an hour went by, or the server failed.
-/

namespace Nockmark
namespace Registry

open Kernel (RegistryState)
open Kit.FormUrl (Faithful)
open Tock (AiHost AiStatement Backend Bytes32 ClientJson Flags Hardware elapsedMs extranonceSpace
  fetchAiChallenge hex32 submitAiRun trimEndSlashes)

/-! ### Issued challenges -/

/-- The challenge is known, and pending, as long as it is, at the target of its reply. -/
structure Issue.Stands (env : AiEnv) (s : Server) (iss : Issue) : Prop where
  reply : iss.reply = aiChallengeReply env s.config iss.statement iss.nonce iss.tier
  known : s.ai.Knows iss.nonce
  pending : ∀ p, s.ai.pending.lookup iss.nonce = some p →
    p.target = iss.tier.map Tier.target ∧ .challenge iss.nonce p ∈ s.log

structure Server.Standing (env : AiEnv) (s : Server) : Prop where
  issues : ∀ iss ∈ s.issued, iss.Stands env s
  used : ∀ n ∈ s.ai.used, ∃ r ∈ s.ai.runs, r.nonce = n

section Stands

variable {env : AiEnv} {s s' : Server} {iss : Issue}

theorem Issue.Stands.challenge (h : iss.Stands env s) {n : UInt64} {p : PendingChallenge}
    (hn : ¬ s.ai.Knows n) (hai : s'.ai = s.ai.apply (.challenge n p)) (hlog : s.log ⊆ s'.log)
    (hcfg : s'.config = s.config) : iss.Stands env s' := by
  have hne : iss.nonce ≠ n := fun heq => hn (heq ▸ h.known)
  constructor
  case reply => rw [hcfg]; exact h.reply
  case known => rw [hai]; exact knows_challenge.mpr (.inr h.known)
  case pending =>
    intro p' hp'
    rw [hai] at hp'
    obtain ⟨ht, hmem⟩ := h.pending p' ((Finmap.lookup_insert_of_ne _ hne).symm.trans hp')
    exact ⟨ht, hlog hmem⟩

theorem Issue.Stands.run (h : iss.Stands env s) {r : AiRunRecord} (hr : s.ai.Knows r.nonce)
    (hai : s'.ai = s.ai.apply (.run r)) (hlog : s.log ⊆ s'.log) (hcfg : s'.config = s.config) :
    iss.Stands env s' := by
  constructor
  case reply => rw [hcfg]; exact h.reply
  case known => rw [hai]; exact (knows_run hr).mpr h.known
  case pending =>
    intro p hp
    rw [hai] at hp
    by_cases hn : iss.nonce = r.nonce
    · rw [hn, show (s.ai.apply (.run r)).pending.lookup r.nonce = none from
        Finmap.lookup_erase _ _] at hp
      cases hp
    · obtain ⟨ht, hmem⟩ := h.pending p ((Finmap.lookup_erase_ne hn).symm.trans hp)
      exact ⟨ht, hlog hmem⟩

end Stands

section Moves

variable {J : SerdeJson} {env : AiEnv} {id : ℕ} {s : Server} {t : Turn} {p : Phase}
  {r : Server × Phase}

theorem Moved.grows (hm : Moved J env id s t p r) :
    s.ai.runs ⊆ r.1.ai.runs ∧ s.log ⊆ r.1.log ∧ s.issued ⊆ r.1.issued := by
  cases hm with
  | quiet => exact ⟨fun _ h => h, fun _ h => h, fun _ h => h⟩
  | minted => exact ⟨fun _ h => h, fun _ h => h, fun _ h => h⟩
  | recorded => exact ⟨fun _ h => h, List.subset_append_left _ _, List.subset_cons_self _ _⟩
  | committed => exact ⟨List.subset_append_left _ _, List.subset_append_left _ _, fun _ h => h⟩

theorem Moved.standing (hm : Moved J env id s t p r) (hp : p.Known id s) (hs : s.Standing env) :
    r.1.Standing env := by
  cases hm with
  | quiet => exact ⟨fun iss h => ⟨(hs.issues iss h).reply, (hs.issues iss h).known,
      (hs.issues iss h).pending⟩, hs.used⟩
  | minted => exact ⟨fun iss h => ⟨(hs.issues iss h).reply, (hs.issues iss h).known,
      (hs.issues iss h).pending⟩, hs.used⟩
  | recorded q statement tier nonce nowMs =>
    refine ⟨?_, hs.used⟩
    intro iss hiss
    rcases List.mem_cons.mp hiss with rfl | hiss
    · refine ⟨rfl, knows_challenge.mpr (.inl rfl), ?_⟩
      intro p hp
      cases (Finmap.lookup_insert _).symm.trans hp
      exact ⟨rfl, List.mem_append_right _ (List.mem_singleton.mpr rfl)⟩
    · exact (hs.issues iss hiss).challenge hp.2 rfl (List.subset_append_left _ _) rfl
  | committed hc hrun =>
    subst hrun
    refine ⟨?_, ?_⟩
    · intro iss hiss
      exact (hs.issues iss hiss).run (knows_of_status hc) rfl (List.subset_append_left _ _) rfl
    · intro n hn
      rcases Finset.mem_insert.mp hn with rfl | hn
      · exact ⟨_, List.mem_append_right _ (List.mem_singleton.mpr rfl), rfl⟩
      · obtain ⟨r, hr, hrn⟩ := hs.used n hn
        exact ⟨r, List.mem_append_left _ hr, hrn⟩

end Moves

section Served

variable {J : SerdeJson} {env : AiEnv} {zk : ZkEnv} {kernel : RegistryState} {config : Config}

theorem standing_served {schedule : List (ℕ × Turn)}
    (hd : ((served J env zk kernel config schedule).shared.minted.map Prod.snd).Nodup) :
    (served J env zk kernel config schedule).shared.Standing env := by
  induction schedule using List.reverseRecOn with
  | nil => exact ⟨nofun, nofun⟩
  | append_singleton before i ih =>
    have hbefore := hd.sublist ((minted_served_suffix before [i]).sublist.map _)
    rw [served_step]
    exact (moved_step J env zk i.1 _ _ i.2).standing ((known_served hbefore).thread i.1)
      (ih hbefore)

end Served

/-- Why a status check fails. -/
theorem challengeStatus_eq_error {ai : AiStore} {nonce nowMs : UInt64} {reason : String}
    (h : challengeStatus ai nonce nowMs = .error reason) :
    (reason = "nonce-used" ∧ nonce ∈ ai.used) ∨ (reason = "unknown-nonce" ∧ ¬ ai.Knows nonce) ∨
      reason = "stale-nonce" ∧ ∃ p, ai.pending.lookup nonce = some p ∧
        aiWindowMs < satSub nowMs p.issuedAtMs := by
  unfold challengeStatus at h
  split at h
  · rename_i hu
    exact .inl ⟨(Except.error.inj h).symm, hu⟩
  rename_i hu
  split at h
  · rename_i hl
    refine .inr (.inl ⟨(Except.error.inj h).symm, ?_⟩)
    rintro (hu' | hp)
    · exact hu hu'
    · exact Finmap.lookup_eq_none.mp hl hp
  rename_i p hl
  split at h
  · rename_i hlate
    exact .inr (.inr ⟨(Except.error.inj h).symm, p, hl, hlate⟩)
  · cases h

/-! ### The handler of the submission -/

/-- The clock that a submission is checked by. -/
def Turn.nowMs? : Turn → Option UInt64
  | .check nowMs => some nowMs
  | .commit nowMs _ _ => some nowMs
  | _ => none

/-- The verifier context, a task or the append fails. -/
def Turn.Fails : Turn → Prop
  | .context error => error ≠ none
  | .verify joinError => joinError ≠ none
  | .commit _ a _ => a ≠ .written
  | _ => False

/-- The answers to a submission whose wins verify; `turns` are the turns since it came. -/
inductive Settled (s : Server) (turns : List (ℕ × Turn)) (id : ℕ) (req : AiRequest)
    (target : Bytes32) : Reply → Prop where
  | recorded {ai : AiStore} {p : PendingChallenge} {nowMs : UInt64}
      (h : newRun ai (req.submission target) p nowMs ∈ s.ai.runs) :
      Settled s turns id req target (runReply (newRun ai (req.submission target) p nowMs))
  | used (h : ∃ r ∈ s.ai.runs, r.nonce = req.nonce) :
      Settled s turns id req target (bad "nonce-used")
  | stale {t : Turn} {nowMs : UInt64} {p : PendingChallenge} (ht : (id, t) ∈ turns)
      (hnow : t.nowMs? = some nowMs) (hp : .challenge req.nonce p ∈ s.log)
      (hlate : aiWindowMs < satSub nowMs p.issuedAtMs) :
      Settled s turns id req target (bad "stale-nonce")
  | failed {t : Turn} {reply : Reply} (ht : (id, t) ∈ turns) (hf : t.Fails)
      (h : reply.status = 500) : Settled s turns id req target reply

/-- The submission is on its way at `target`, with wins left that verify, or it is settled. -/
def Phase.Bound (env : AiEnv) (s : Server) (turns : List (ℕ × Turn)) (id : ℕ) (req : AiRequest)
    (target : Bytes32) : Phase → Prop
  | .checking req' => req' = req
  | .preparing req' target' => req' = req ∧ target' = target
  | .verifying req' target' rest _ => req' = req ∧ target' = target ∧ ∀ winBlob ∈ rest,
      req.statement.verify env (challenge32 env.blake3 req.nonce) target winBlob.1.extranonce
        winBlob.2 = .ok ()
  | .answered reply => Settled s turns id req target reply
  | .gone => (id, .hangUp) ∈ turns
  | _ => False

section Bound

variable {J : SerdeJson} {env : AiEnv} {zk : ZkEnv} {s s' : Server} {turns turns' : List (ℕ × Turn)}
  {id : ℕ} {req : AiRequest} {target : Bytes32}

theorem Settled.mono {reply : Reply} (h : Settled s turns id req target reply)
    (hruns : s.ai.runs ⊆ s'.ai.runs) (hlog : s.log ⊆ s'.log) (hturns : turns ⊆ turns') :
    Settled s' turns' id req target reply := by
  cases h with
  | recorded h => exact .recorded (hruns h)
  | used h =>
    obtain ⟨r, hr, hn⟩ := h
    exact .used ⟨r, hruns hr, hn⟩
  | stale ht hnow hp hlate => exact .stale (hturns ht) hnow (hlog hp) hlate
  | failed ht hf h => exact .failed (hturns ht) hf h

theorem Phase.Bound.mono {p : Phase} (h : p.Bound env s turns id req target)
    (hruns : s.ai.runs ⊆ s'.ai.runs) (hlog : s.log ⊆ s'.log) (hturns : turns ⊆ turns') :
    p.Bound env s' turns' id req target := by
  cases p with
  | answered reply => exact Settled.mono h hruns hlog hturns
  | gone => exact hturns h
  | _ => exact h

/-- The challenge that a submission is for, with the target that it is verified at. -/
structure Issue.For (iss : Issue) (cfg : Config) (req : AiRequest) (target : Bytes32) : Prop where
  nonce : req.nonce = iss.nonce
  target : target = (iss.tier.map Tier.target).getD (cfg.target req.statement)

variable {iss : Issue}

/-- A check that refuses the submission has a reason. -/
theorem settled_of_status (hs : s.Standing env) (hiss : iss ∈ s.issued)
    (hfor : iss.For s.config req target) {t : Turn} (ht : (id, t) ∈ turns) {nowMs : UInt64}
    (hnow : t.nowMs? = some nowMs) {reason : String}
    (h : challengeStatus s.ai req.nonce nowMs = .error reason) :
    Settled s turns id req target (bad reason) := by
  rcases challengeStatus_eq_error h with ⟨rfl, hu⟩ | ⟨-, hno⟩ | ⟨rfl, p, hl, hlate⟩
  · exact .used (hs.used _ hu)
  · rw [hfor.nonce] at hno
    exact absurd (hs.issues iss hiss).known hno
  · rw [hfor.nonce] at hl
    have hp := ((hs.issues iss hiss).pending p hl).2
    exact .stale ht hnow (hfor.nonce ▸ hp) hlate

/-- A check that passes finds the target of the challenge. -/
theorem target_of_status (hs : s.Standing env) (hiss : iss ∈ s.issued)
    (hfor : iss.For s.config req target) {nowMs : UInt64} {p : PendingChallenge}
    (h : challengeStatus s.ai req.nonce nowMs = .ok p) :
    p.target.getD (s.config.target req.statement) = target := by
  obtain ⟨-, hl, -⟩ := challengeStatus_eq_ok h
  rw [hfor.nonce] at hl
  rw [((hs.issues iss hiss).pending p hl).1, hfor.target]

/-- A turn of the handler. -/
theorem bound_step (hs : s.Standing env) (hiss : iss ∈ s.issued)
    (hfor : iss.For s.config req target)
    (hv : ∀ winBlob ∈ req.sub.wins.zip req.blobs,
      req.statement.verify env (challenge32 env.blake3 req.nonce) target winBlob.1.extranonce
        winBlob.2 = .ok ())
    {p : Phase} (hp : p.Bound env s turns id req target) (t : Turn) :
    (handlerStep J env zk id s p t).2.Bound env (handlerStep J env zk id s p t).1
      (turns ++ [(id, t)]) id req target := by
  have hm := handlerMove_step J env zk id s p t
  have hturn : (id, t) ∈ turns ++ [(id, t)] :=
    List.mem_append_right _ (List.mem_singleton.mpr rfl)
  generalize handlerStep J env zk id s p t = r at hm
  cases hm with
  | stay => exact hp.mono (fun _ h => h) (fun _ h => h) (List.subset_append_left _ _)
  | hangUp => exact hturn
  | newChallenge => cases hp
  | submit => cases hp
  | mint => cases hp
  | record => cases hp
  | poke => cases hp
  | check req' nowMs =>
    obtain rfl : req' = req := hp
    simp only [check]
    cases hc : challengeStatus s.ai req'.nonce nowMs with
    | error reason => exact settled_of_status hs hiss hfor hturn rfl hc
    | ok pending => exact ⟨rfl, target_of_status hs hiss hfor hc⟩
  | context req' target' error =>
    obtain ⟨rfl, rfl⟩ := hp
    cases error with
    | none => exact ⟨rfl, rfl, hv⟩
    | some e => exact .failed hturn (Option.some_ne_none e) rfl
  | verify req' target' win blob rest accepted joinError =>
    obtain ⟨rfl, rfl, hrest⟩ := hp
    obtain ⟨hwin, hrest⟩ := List.forall_mem_cons.mp hrest
    simp only [verifyWin]
    cases joinError with
    | none =>
      simp only [hwin]
      exact ⟨rfl, rfl, hrest⟩
    | some e => exact .failed hturn (Option.some_ne_none e) rfl
  | commit req' target' accepted nowMs a ioError =>
    obtain ⟨rfl, rfl, -⟩ := hp
    cases hc : challengeStatus s.ai (req'.submission target').nonce nowMs with
    | error reason =>
      simp only [Server.commit, commitRun, hc]
      exact settled_of_status hs hiss hfor hturn rfl hc
    | ok pending =>
      cases a with
      | written =>
        simp only [Server.commit, commitRun_written J s.disk hc]
        exact .recorded (List.mem_append_right _ (List.mem_singleton.mpr rfl))
      | failed n =>
        simp only [Server.commit, commitRun, hc, Append.ok]
        exact .failed hturn (by simp [Turn.Fails]) rfl

end Bound

/-- From the submission on, whoever moves. -/
theorem bound_served {J : SerdeJson} {env : AiEnv} {zk : ZkEnv} {kernel : RegistryState}
    {config : Config} {before after : List (ℕ × Turn)} {id : ℕ} {q : Query} {body : Body}
    (hidle : (served J env zk kernel config before).thread id = .idle) {req : AiRequest}
    (hsubmit : submit env zk config q body = .checking req) {iss : Issue}
    (hiss : iss ∈ (served J env zk kernel config before).shared.issued) {target : Bytes32}
    (hfor : iss.For config req target)
    (hv : ∀ winBlob ∈ req.sub.wins.zip req.blobs,
      req.statement.verify env (challenge32 env.blake3 req.nonce) target winBlob.1.extranonce
        winBlob.2 = .ok ())
    (hd : ((served J env zk kernel config
      (before ++ (id, .submit q body) :: after)).shared.minted.map Prod.snd).Nodup) :
    let w := served J env zk kernel config (before ++ (id, .submit q body) :: after)
    iss ∈ w.shared.issued ∧ (w.thread id).Bound env w.shared after id req target := by
  induction after using List.reverseRecOn with
  | nil =>
    rw [served_step]
    refine ⟨?_, ?_⟩
    · exact (moved_step J env zk id _ _ _).grows.2.2 hiss
    · rw [Kit.Program.move_thread_self, hidle]
      show (submit env zk _ q body).Bound _ _ _ _ _ _
      rw [config_served, hsubmit]
      rfl
  | append_singleton after i ih =>
    rw [show before ++ (id, .submit q body) :: (after ++ [i]) =
      (before ++ (id, .submit q body) :: after) ++ [i] by simp] at hd ⊢
    have hbefore := hd.sublist ((minted_served_suffix _ [i]).sublist.map _)
    obtain ⟨hmem, hbound⟩ := ih hbefore
    have hm := moved_step J env zk i.1
      (served J env zk kernel config (before ++ (id, .submit q body) :: after)).shared
      ((served J env zk kernel config (before ++ (id, .submit q body) :: after)).thread i.1) i.2
    rw [served_step]
    refine ⟨hm.grows.2.2 hmem, ?_⟩
    by_cases hi : id = i.1
    · subst hi
      rw [Kit.Program.move_thread_self]
      exact bound_step (standing_served hbefore) hmem (by rw [config_served]; exact hfor) hv
        hbound i.2
    · rw [Kit.Program.move_thread_ne _ hi]
      exact hbound.mono hm.grows.1 hm.grows.2.1 (List.subset_append_left _ _)

/-- The run is the submission's, for the challenge. -/
structure AiRunRecord.Of (run : AiRunRecord) (iss : Issue) (verifiedAt : Bytes32)
    (sub : Tock.AiSubmission) : Prop where
  nonce : run.nonce = iss.nonce
  statement : run.statement = iss.statement
  target : run.target = hex32 verifiedAt
  k : run.k = sub.wins.length
  extranonces : run.winExtranonces = sub.wins.map Tock.AiWinSubmission.extranonce
  hardware : run.hardware = sub.hardware
  proverVersion : run.proverVersion = sub.proverVersion
  elapsed : run.grindElapsedMs = sub.grindElapsedMs

theorem newRun_of {env : AiEnv} {st : AiStatement} {iss : Issue} {target : Bytes32}
    {sub : Tock.AiSubmission} {req : AiRequest}
    (h : req.Honest env st iss.nonce target sub) (hst : iss.statement = ofClient st)
    (ai : AiStore) (p : PendingChallenge) (nowMs : UInt64) :
    (newRun ai (req.submission target) p nowMs).Of iss target sub := by
  constructor
  case nonce => exact h.nonce
  case statement => exact h.statement.trans hst.symm
  case target => rfl
  case k =>
    show req.extranonces.length = _
    rw [h.extranonces, List.length_map]
  case extranonces => exact h.extranonces
  case hardware => exact congrArg AiRunSubmission.hardware h.sub
  case proverVersion => exact congrArg AiRunSubmission.proverVersion h.sub
  case elapsed => exact congrArg AiRunSubmission.grindElapsedMs h.sub

/-- A client fetches a challenge, grinds and proves it, and submits, for either statement and on
either backend; what it sends gets to a handler. However the server's other handlers interleave and
whatever fails, as long as no nonce is minted twice: the handler does not end but by an answer or
when the client hangs up. The answer is the id of a stored run of just this submission, at the
target that the challenge was issued with; or the nonce was used, by a stored run; or a clock that
the handler read was more than an hour after the challenge; or the server failed. -/
theorem honest_ai_run {host : AiHost} {env : AiEnv} {jackpot : Bytes32 → List UInt8 → Bytes32}
    {moeJackpot : Bytes32 → UInt32 → Bytes32} (hup : Upstream host env jackpot moeJackpot)
    {lossy : List UInt8 → String} (hlossy : Faithful lossy) {base : String} (hbase : BaseUrl base)
    {J : SerdeJson} {json : ClientJson} (hread : Reads json J) (statusText : ℕ → String)
    {zk : ZkEnv} {kernel : RegistryState} {config : Config} {before after : List (ℕ × Turn)}
    {id : ℕ} (hidle : (served J env zk kernel config before).thread id = .idle) {iss : Issue}
    (hiss : iss ∈ (served J env zk kernel config before).shared.issued) {st : AiStatement}
    {attempts : Option UInt64} {rc : Tock.AiRegistryChallenge}
    (hfetch : fetchAiChallenge json (fun _ => .ok (responseOf J statusText iss.reply)) base st
      attempts = .ok rc) {fuel batchAttempts : ℕ} (hfuel : extranonceSpace ≤ fuel)
    (hbatch : 0 < batchAttempts) {backend : Backend} {flags : Flags} {hw : Hardware} {totalS : ℚ}
    {sub : Tock.AiSubmission}
    (hsub : host.bench fuel batchAttempts backend flags st (some rc) hw (elapsedMs totalS) =
      some (.ok (some sub)))
    (asRun : Except String RunSubmission) (shape : Kit.Json.Value → String)
    (hd : let url := trimEndSlashes base ++ "/run?track=ai"
      ((served J env zk kernel config
        (before ++ (id, .submit (queryOf lossy url) ⟨asRun, bodyOf shape sub.value⟩) ::
          after)).shared.minted.map Prod.snd).Nodup) :
    let url := trimEndSlashes base ++ "/run?track=ai"
    let w := served J env zk kernel config
      (before ++ (id, .submit (queryOf lossy url) ⟨asRun, bodyOf shape sub.value⟩) :: after)
    let target := (iss.tier.map Tier.target).getD (config.target iss.statement)
    let told := fun reply =>
      submitAiRun json (fun _ _ => .ok (responseOf J statusText reply)) base sub
    (w.thread id = .gone → (id, .hangUp) ∈ after) ∧
    ∀ reply, w.thread id = .answered reply →
      (∃ run ∈ w.shared.ai.runs, run.Of iss target sub ∧ reply = runReply run ∧
        (run.id < 2 ^ 64 → told reply = .ok (UInt64.ofNat run.id))) ∨
      (told reply = .error "nonce-used" ∧ ∃ run ∈ w.shared.ai.runs, run.nonce = iss.nonce) ∨
      (told reply = .error "stale-nonce" ∧ ∃ t nowMs p, (id, t) ∈ after ∧ t.nowMs? = some nowMs ∧
        .challenge iss.nonce p ∈ w.shared.log ∧
        p.issuedAtMs.toNat + aiWindowMs.toNat < nowMs.toNat) ∨
      reply.status = 500 ∧ ∃ t, (id, t) ∈ after ∧ t.Fails := by
  intro url w target told
  have hbefore := hd.sublist ((minted_served_suffix before _).sublist.map _)
  have hstands := (standing_served hbefore).issues iss hiss
  rw [hstands.reply, config_served] at hfetch
  obtain ⟨hst, rfl⟩ := fetch_reply_ok hread hfetch
  rw [hst] at hsub
  have hhonest := bench_honest hup hfuel hbatch (elapsedMs_ne_zero totalS) hsub
  obtain ⟨req, hsubmit, hreq⟩ := @submit_honest env zk config lossy hlossy base hbase st _ _ _
    hhonest asRun shape
  have hfor : iss.For config req target := by
    refine ⟨hreq.nonce, ?_⟩
    rw [hreq.statement, ← hst]
  have hverifies := hreq.verifies
  rw [← hst] at hverifies hreq
  obtain ⟨-, hbound⟩ := bound_served hidle hsubmit hiss hfor hverifies hd
  constructor
  · intro hgone
    rw [hgone] at hbound
    exact hbound
  · intro reply hans
    rw [hans] at hbound
    cases hbound with
    | recorded h =>
      refine .inl ⟨_, h, newRun_of hreq hst _ _ _, rfl, ?_⟩
      exact fun hid => runIdOf_ok hread url statusText hid
    | used h =>
      rw [hreq.nonce] at h
      exact .inr (.inl ⟨runIdOf_bad hread url statusText _, h⟩)
    | stale ht hnow hp hlate =>
      rename_i t nowMs p
      rw [hreq.nonce] at hp
      rw [UInt64.lt_iff_toNat_lt, satSub_toNat] at hlate
      exact .inr (.inr (.inl ⟨runIdOf_bad hread url statusText _, t, nowMs, p, ht, hnow, hp,
        by omega⟩))
    | failed ht hf h => exact .inr (.inr (.inr ⟨h, _, ht, hf⟩))

/-! ### The first run of a registry -/

/-- Every dense attempt wins, and a blob begins with its nonce or ordinal. -/
def openHost : AiHost where
  dense := Tock.everyAttempt
  canonical := Tock.loneCanonical 5
  gpu := Tock.scanningGpu (Tock.loneWinner 5)
  moe := ⟨Unit, fun _ _ => .ok ⟨(), some []⟩, fun blob => .ok (Kit.leBytes 4 blob.ordinal.toNat)⟩
  base64 bytes := String.ofList (bytes.map fun b => Char.ofNat b.toNat)
  devChallenge := .fill 32 0
  devMoeChallenge := .fill 32 0
  rnd := id

/-- A registry that reads such blobs and accepts them. -/
def openEnv : AiEnv where
  base64 text := some (text.toList.map fun ch => UInt8.ofNat ch.toNat)
  blake3 _ := .fill 32 0xff
  debug := id
  decodeCert blob := .ok (blob.take 8)
  decodeMoeCert blob := .ok (UInt32.ofNat (Kit.leNat blob))
  checkCert _ _ _ := .ok ()
  checkMoeCert _ _ _ _ := .ok ()
  moeThreshold := Tock.scaledThreshold

theorem upstream_open :
    Upstream openHost openEnv (fun _ _ => .fill 32 0) (Tock.loneWinner 5) := by
  constructor
  case dense =>
    refine ⟨fun _ _ target => ?_⟩
    simp [openHost, Tock.everyAttempt, Tock.hashLeTarget,
      show (Kit.Block.fill 32 0).toNat = 0 by decide]
  case canonical => exact Tock.loneCanonical_lawful 5
  case gpu => exact Tock.scanningGpu_lawful _
  case threshold => rfl
  case base64 =>
    have hchar : ∀ b : UInt8, UInt8.ofNat (Char.ofNat b.toNat).toNat = b := by
      intro b
      rw [Char.toNat_ofNat, if_pos (.inl (lt_trans b.toNat_lt (by decide))), UInt8.ofNat_toNat]
    intro bytes
    simp [openEnv, openHost, Function.comp_def, hchar]
  case decode =>
    rintro ch w ⟨cache, run, hrun, hcert, hblob⟩
    cases hrun
    have hbytes : Tock.extranonceNonce w.extranonce ++ w.certBytes = w.submissionBytes :=
      Except.ok.inj hblob
    rw [← Except.ok.inj hcert] at hbytes
    have hlen : (Tock.extranonceNonce w.extranonce).length = 8 := Kit.length_leBytes 8 _
    rw [← hbytes]
    refine ⟨?_, ?_⟩
    · rw [List.length_append, hlen]
      decide
    · simp only [openEnv, List.take_left' hlen]
  case decodeMoe =>
    rintro ch w ⟨block, -, -, hblob⟩
    have hbytes : w.submissionBytes = Kit.leBytes 4 w.ordinal.toNat := (Except.ok.inj hblob).symm
    rw [hbytes]
    refine ⟨?_, ?_⟩
    · rw [Kit.length_leBytes]
      decide
    · have hlt : w.ordinal.toNat < 256 ^ 4 := w.ordinal.toNat_lt
      simp only [openEnv, Kit.leNat_leBytes hlt, UInt32.ofNat_toNat]
  case check => exact fun _ _ _ _ => rfl
  case checkMoe => exact fun _ _ _ _ _ _ => rfl

/-- Handler 0 issues challenge 7. -/
def issuedSeven : List (ℕ × Turn) :=
  [(0, .newChallenge untieredQuery), (0, .mint 7 0), (0, .record 1000 .written)]

def issueSeven : Issue :=
  ⟨untieredQuery, .dense, 7, none, aiChallengeReply openEnv (zkConfig 8) .dense 7 none⟩

def subSeven : Tock.AiSubmission :=
  ⟨"7", "unknown CPU / Linux / x86_64", "c8d6b13e", 1,
    [⟨0, openHost.base64 (Tock.extranonceNonce 0 ++ Tock.extranonceNonce 0)⟩], none⟩

/-- Handler 1 answers the submission. -/
def answeredSeven : List (ℕ × Turn) :=
  [(1, .check 2000), (1, .context none), (1, .verify none), (1, .commit 3000 .written "")]

def worldSeven : Kit.Threads Server Phase :=
  let url := trimEndSlashes "https://registry.example/" ++ "/run?track=ai"
  served .compact openEnv (provesOnly "7") Kernel.init (zkConfig 8) (issuedSeven ++
    (1, .submit (queryOf lossyUtf8 url) ⟨.error "", bodyOf (fun _ => "") subSeven.value⟩) ::
      answeredSeven)

def runSeven : AiRunRecord :=
  ⟨1, 7, "unknown CPU / Linux / x86_64", "c8d6b13e", .dense, 1, hex32 (.fill 32 0xff), 1, [0], 1000,
    3000⟩

theorem honest_ai_run_seven : ∃ run ∈ worldSeven.shared.ai.runs,
    run.Of issueSeven (.fill 32 0xff) subSeven ∧ run.id = 1 := by
  have hbase : BaseUrl "https://registry.example/" := by
    constructor <;> simp
  have hms : elapsedMs (0 : ℚ) = 1 := by decide +kernel
  have hfetch : fetchAiChallenge compactJson (fun _ => .ok (responseOf .compact
      (fun _ => "200 OK") (aiChallengeReply openEnv (zkConfig 8) (ofClient .dense) 7 none)))
      "https://registry.example/" .dense none =
      .ok (challengeOf openEnv (zkConfig 8) (ofClient .dense) 7 none) := by
    rw [fetch_reply compactJson_reads _ _ _ _ _ _ _
      (fromValue_aiChallengeReply fun t ht => by cases ht)]
    exact checkChallenge_same .dense 7 none
  have hsub : openHost.bench extranonceSpace 1 .cpu ⟨none, none, none, 1⟩ .dense
      (some (challengeOf openEnv (zkConfig 8) .dense 7 none)) ⟨none, none, none, "Linux", "x86_64"⟩
      (elapsedMs (0 : ℚ)) = some (.ok (some subSeven)) := by
    rw [hms]
    simp only [AiHost.bench, Tock.aiBench, Tock.aiBenchWith, resolve_challengeOf]
    rfl
  have hans : worldSeven.thread 1 = .answered (runReply runSeven) := rfl
  have hok : submitAiRun compactJson
      (fun _ _ => .ok (responseOf .compact (fun _ => "200 OK") (runReply runSeven)))
      "https://registry.example/" subSeven = .ok 1 := by
    rw [submitAiRun, runReply, runIdOf_ok compactJson_reads _ _ (by decide)]
    rfl
  obtain ⟨run, hrun, hof, hreply, -⟩ | ⟨htold, -⟩ | ⟨htold, -⟩ | ⟨h500, -⟩ :=
    (@honest_ai_run openHost openEnv _ _ upstream_open lossyUtf8 lossyUtf8_faithful _ hbase .compact
      compactJson compactJson_reads (fun _ => "200 OK") (provesOnly "7") Kernel.init (zkConfig 8)
      issuedSeven answeredSeven 1 rfl issueSeven (List.mem_singleton.mpr rfl) .dense none _ hfetch
      _ _ (Nat.le_refl _) Nat.one_pos _ _ _ _ subSeven hsub (.error "") (fun _ => "")
      (by decide +kernel)).2 _ hans
  · refine ⟨run, hrun, hof, ?_⟩
    have hbody := congrArg (fun r => (r.body.index "run_id").asNum) hreply
    exact (Option.some.inj hbody).symm
  · cases hok.symm.trans htold
  · cases hok.symm.trans htold
  · cases h500

end Registry
end Nockmark
