import Nockmark.Registry.Server

/-!
# Registry.Evidence

What stands behind a recorded run, whatever else the server does meanwhile.

The status check and the commit of a submission are separate moves, and other handlers move in
between; the second check is what keeps a nonce from being spent twice. The request itself is the
handler's own, so its vectors stay aligned from the first check to the commit.

* `Phase.Sound`: what a submission has established when it awaits.
* `Evidence.Verified`: every win was accepted by the verifier of the recorded statement, for the
  recorded nonce, target and extranonces.
* `stored_runs_verified`: in every interleaving each stored run is verified, no nonce has two, and
  a handler that answers with an error left the store alone.
-/

namespace Nockmark
namespace Registry

open Kernel (RegistryState)
open Tock (Bytes32 hex32)

/-- `a` is an acceptance of the win by the verifier that the request calls. -/
structure AcceptedFor (env : AiEnv) (req : AiRequest) (target : Bytes32)
    (winBlob : AiWinSubmission × List UInt8) (a : Accepted) : Prop where
  statement : a.statement = req.statement
  challenge : a.challenge = challenge32 env.blake3 req.nonce
  target : a.target = target
  attempt : a.attempt = winBlob.1.extranonce
  blob : a.blob = winBlob.2
  ok : a.statement.verify env a.challenge a.target a.attempt a.blob = .ok ()

/-- An admitted request, with an acceptance for each of its wins before the rest. -/
def Phase.Sound (env : AiEnv) (aiK : UInt64) : Phase → Prop
  | .checking req => req.Admitted env aiK
  | .preparing req _ => req.Admitted env aiK
  | .verifying req target rest accepted =>
    req.Admitted env aiK ∧ ∃ done, done ++ rest = req.sub.wins.zip req.blobs ∧
      List.Forall₂ (AcceptedFor env req target) done accepted
  | _ => True

theorem Local.sound {env : AiEnv} {s : AppState} {p p' : Phase} (h : Local env s p p')
    (hp : p.Sound env s.config.aiK) : p'.Sound env s.config.aiK := by
  cases h with
  | stay => exact hp
  | gone => trivial
  | answer => trivial
  | newChallenge => trivial
  | submitZk => trivial
  | submit hreq => exact hreq
  | check => exact hp
  | prepare => exact ⟨hp, [], rfl, .nil⟩
  | verify hok =>
    rename_i req target win blob rest accepted
    obtain ⟨hreq, done, heq, hacc⟩ := hp
    refine ⟨hreq, done ++ [(win, blob)], ?_, ?_⟩
    · rw [List.append_assoc, List.singleton_append, heq]
    · exact List.rel_append hacc (.cons ⟨rfl, rfl, rfl, rfl, rfl, hok⟩ .nil)

/-! ### A verified run -/

structure Evidence.Verified (env : AiEnv) (aiK : UInt64) (ev : Evidence) : Prop where
  /-- As many acceptances as the instance asks for wins. -/
  count : ev.accepted.length = aiK.toNat
  k : ev.run.k = aiK.toNat
  /-- One for each win of the request, of the blob and the extranonce that it has there. -/
  wins : List.Forall₂
    (fun win a => env.base64 win.certB64 = some a.blob ∧ win.extranonce = a.attempt)
    ev.req.sub.wins ev.accepted
  accepted : ∀ a ∈ ev.accepted, a.statement = ev.run.statement ∧
    a.challenge = challenge32 env.blake3 ev.run.nonce ∧ hex32 a.target = ev.run.target ∧
    a.statement.verify env a.challenge a.target a.attempt a.blob = .ok ()
  extranonces : ev.run.winExtranonces = ev.accepted.map Accepted.attempt
  distinct : ev.run.winExtranonces.Nodup
  blobs : (ev.accepted.map Accepted.blob).Nodup
  /-- For canonical MoE the cast to u32 loses nothing. -/
  names : ∀ x ∈ ev.run.winExtranonces, ev.run.statement.Names x

theorem length_le_of_nodup {xs : List UInt64} (h : xs.Nodup) : xs.length ≤ 2 ^ 64 := by
  have hmap : (xs.map UInt64.toNat).Nodup := h.map fun _ _ => UInt64.toNat_inj.mp
  have hsub : xs.map UInt64.toNat ⊆ List.range (2 ^ 64) := by
    intro n hn
    obtain ⟨x, -, rfl⟩ := List.mem_map.mp hn
    exact List.mem_range.mpr x.toNat_lt
  have hle := (List.subperm_of_subset hmap hsub).length_le
  rwa [List.length_map, List.length_range] at hle

/-- The wins are counted modulo `2^64`, but there are no `2^64` ascending extranonces and one
more. -/
theorem AiRequest.Admitted.length_wins {env : AiEnv} {aiK : UInt64} {req : AiRequest}
    (h : req.Admitted env aiK) (hk : aiK ≠ 0) : req.sub.wins.length = aiK.toNat := by
  have hle := length_le_of_nodup (extranonces_nodup h.ascending)
  rw [h.extranonces, List.length_map] at hle
  have hc := congrArg UInt64.toNat h.count
  rw [UInt64.toNat_ofNat'] at hc
  have hne : aiK.toNat ≠ 0 := fun h0 => hk (UInt64.toNat_inj.mp h0)
  rcases hle.eq_or_lt with heq | hlt
  · rw [heq, Nat.mod_self] at hc
    exact absurd hc.symm hne
  · rwa [Nat.mod_eq_of_lt hlt] at hc

theorem forall₂_wins {env : AiEnv} {req : AiRequest} {target : Bytes32}
    {wins : List AiWinSubmission} {blobs : List (List UInt8)} {accepted : List Accepted}
    (hb : List.Forall₂ (fun win blob => env.base64 win.certB64 = some blob) wins blobs)
    (ha : List.Forall₂ (AcceptedFor env req target) (wins.zip blobs) accepted) :
    List.Forall₂
      (fun win a => env.base64 win.certB64 = some a.blob ∧ win.extranonce = a.attempt)
      wins accepted := by
  induction hb generalizing accepted with
  | nil => cases ha; exact .nil
  | cons hwin _ ih =>
    cases ha with
    | cons hacc ha => exact .cons ⟨by rw [hwin, hacc.blob], hacc.attempt.symm⟩ (ih ha)

theorem map_attempt {wins : List AiWinSubmission} {accepted : List Accepted} {env : AiEnv}
    (h : List.Forall₂
      (fun win a => env.base64 win.certB64 = some a.blob ∧ win.extranonce = a.attempt)
      wins accepted) :
    wins.map AiWinSubmission.extranonce = accepted.map Accepted.attempt := by
  induction h with
  | nil => rfl
  | cons hwin _ ih => rw [List.map_cons, List.map_cons, hwin.2, ih]

/-- A blob carries one attempt, so blobs of distinct attempts are distinct. -/
theorem blobs_nodup {env : AiEnv} {req : AiRequest} {accepted : List Accepted}
    (hok : ∀ a ∈ accepted, ∃ c t, req.statement.verify env c t a.attempt a.blob = .ok ())
    (hnames : ∀ a ∈ accepted, req.statement.Names a.attempt)
    (hdistinct : (accepted.map Accepted.attempt).Nodup) :
    (accepted.map Accepted.blob).Nodup := by
  refine List.Nodup.map_on ?_ hdistinct.of_map
  intro a ha b hb heq
  obtain ⟨c, t, hva⟩ := hok a ha
  obtain ⟨c', t', hvb⟩ := hok b hb
  rw [heq] at hva
  exact List.inj_on_of_nodup_map hdistinct ha hb
    (Statement.verify_blob hva hvb (hnames a ha) (hnames b hb))

/-- The commit of a handler that has verified all its wins. -/
theorem verified_of_sound {env : AiEnv} {aiK : UInt64} (hk : aiK ≠ 0) {req : AiRequest}
    {target : Bytes32} {accepted : List Accepted}
    (h : (Phase.verifying req target [] accepted).Sound env aiK) (id : ℕ) (s : AiStore)
    (p : PendingChallenge) (nowMs : UInt64) :
    (⟨id, req, newRun s (req.submission target) p nowMs, accepted⟩ : Evidence).Verified env
      aiK := by
  obtain ⟨hreq, done, heq, hacc⟩ := h
  rw [List.append_nil] at heq
  subst heq
  have hwins := forall₂_wins hreq.blobs hacc
  have hx : req.extranonces = accepted.map Accepted.attempt := by
    rw [hreq.extranonces, map_attempt hwins]
  have hlen : accepted.length = aiK.toNat := by
    rw [← hwins.length_eq, hreq.length_wins hk]
  have hnodup : req.extranonces.Nodup := extranonces_nodup hreq.ascending
  have hok : ∀ a ∈ accepted, a.statement = req.statement ∧
      a.challenge = challenge32 env.blake3 req.nonce ∧ hex32 a.target = hex32 target ∧
      a.statement.verify env a.challenge a.target a.attempt a.blob = .ok () := by
    intro a ha
    obtain ⟨winBlob, -, hfor⟩ := Kernel.mem_right_of_forall₂ hacc ha
    exact ⟨hfor.statement, hfor.challenge, congrArg hex32 hfor.target, hfor.ok⟩
  constructor
  case count => exact hlen
  case k => exact (congrArg List.length hx).trans ((List.length_map _).trans hlen)
  case wins => exact hwins
  case accepted => exact hok
  case extranonces => exact hx
  case distinct => exact hnodup
  case names => exact hreq.names
  case blobs =>
    refine @blobs_nodup env req accepted ?_ ?_ (hx ▸ hnodup)
    · intro a ha
      obtain ⟨hs, -, -, hv⟩ := hok a ha
      exact ⟨_, _, hs ▸ hv⟩
    · intro a ha
      apply hreq.names
      rw [hx]
      exact List.mem_map_of_mem ha

/-! ### Every interleaving -/

structure Server.Sound (env : AiEnv) (s : Server) : Prop where
  single : (s.ai.runs.map AiRunRecord.nonce).Nodup
  used : ∀ r ∈ s.ai.runs, r.nonce ∈ s.ai.used
  evidence : ∀ r ∈ s.ai.runs, ∃ ev ∈ s.evidence, ev.run = r ∧ ev.Verified env s.config.aiK

/-- A thread is sound, and has answered with the runs that it recorded. -/
def ThreadSound (env : AiEnv) (id : ℕ) (s : Server) (p : Phase) : Prop :=
  p.Sound env s.config.aiK ∧
    ∀ ev ∈ s.evidence, ev.handler = id → p = .answered (runReply ev.run)

theorem Server.Sound.commit {env : AiEnv} {s : Server} (h : s.Sound env) {run : AiRunRecord}
    (hfresh : run.nonce ∉ s.ai.used) {disk : Disk} {log : List Event} {ev : Evidence}
    (hev : ev.run = run) (hv : ev.Verified env s.config.aiK) :
    ({ s with ai := s.ai.apply (.run run), disk, log, evidence := ev :: s.evidence } :
      Server).Sound env := by
  constructor
  · show ((s.ai.runs ++ [run]).map AiRunRecord.nonce).Nodup
    rw [List.map_append, List.map_singleton, ← List.concat_eq_append]
    refine List.Nodup.concat ?_ h.single
    intro hmem
    obtain ⟨r, hr, heq⟩ := List.mem_map.mp hmem
    exact hfresh (heq ▸ h.used r hr)
  · refine List.forall_mem_append.mpr ⟨?_, List.forall_mem_singleton.mpr ?_⟩
    · intro r hr
      exact Finset.mem_insert_of_mem (h.used r hr)
    · exact Finset.mem_insert_self _ _
  · refine List.forall_mem_append.mpr ⟨?_, List.forall_mem_singleton.mpr ?_⟩
    · intro r hr
      obtain ⟨ev', hmem, heq, hv'⟩ := h.evidence r hr
      exact ⟨ev', List.mem_cons_of_mem _ hmem, heq, hv'⟩
    · exact ⟨ev, List.mem_cons_self, hev, hv⟩

section Interleaving

variable {J : SerdeJson} {env : AiEnv} {zk : ZkEnv} {id : ℕ} {s : Server} {t : Turn} {p : Phase}
  {r : Server × Phase}

theorem Moved.phase_sound (hm : Moved J env id s t p r) (hp : p.Sound env s.config.aiK) :
    r.2.Sound env r.1.config.aiK := by
  cases hm with
  | quiet hl => exact hl.sound hp
  | minted _ _ hp' =>
    rcases hp' with ⟨-, rfl⟩ | ⟨reply, rfl⟩
    · trivial
    · trivial
  | recorded => trivial
  | committed => trivial

theorem Moved.sound (hm : Moved J env id s t p r) (hs : s.Sound env) (hp : ThreadSound env id s p) :
    r.1.Sound env ∧ ThreadSound env id r.1 r.2 := by
  cases hm with
  | quiet hl kernel disk =>
    refine ⟨⟨hs.single, hs.used, hs.evidence⟩, hl.sound hp.1, ?_⟩
    intro ev hev hid
    have hans := hp.2 ev hev hid
    subst hans
    cases hl with
    | stay => rfl
    | gone hw => cases hw
    | answer hw => cases hw
  | minted _ _ hp' =>
    refine ⟨⟨hs.single, hs.used, hs.evidence⟩, ?_, ?_⟩
    · rcases hp' with ⟨-, rfl⟩ | ⟨reply, rfl⟩
      · trivial
      · trivial
    · intro ev hev hid
      cases hp.2 ev hev hid
  | recorded =>
    refine ⟨⟨hs.single, hs.used, hs.evidence⟩, trivial, ?_⟩
    intro ev hev hid
    cases hp.2 ev hev hid
  | committed hc hrun =>
    rename_i req target accepted nowMs pending run
    subst hrun
    have hv := verified_of_sound s.config.aiK_ne_zero hp.1 id s.ai pending nowMs
    refine ⟨hs.commit (challengeStatus_eq_ok hc).1 rfl hv, trivial, ?_⟩
    intro ev hev hid
    rcases List.mem_cons.mp hev with rfl | hev
    · rfl
    · cases hp.2 ev hev hid

/-- A move leaves the other handlers as sound as they were. -/
theorem Moved.sound_other (hm : Moved J env id s t p r) {j : ℕ} (hj : j ≠ id) {p' : Phase}
    (hp : ThreadSound env j s p') : ThreadSound env j r.1 p' := by
  cases hm with
  | quiet => exact hp
  | minted => exact hp
  | recorded => exact hp
  | committed =>
    refine ⟨hp.1, ?_⟩
    intro ev hev hid
    rcases List.mem_cons.mp hev with rfl | hev
    · exact absurd hid.symm hj
    · exact hp.2 ev hev hid

/-- A move that changes the store answers with success. -/
theorem Moved.store (hm : Moved J env id s t p r) :
    r.1.ai = s.ai ∨ ∃ reply, r.2 = .answered reply ∧ reply.status = 200 := by
  cases hm with
  | quiet => exact .inl rfl
  | minted => exact .inl rfl
  | recorded q statement tier nonce =>
    refine .inr ⟨_, rfl, ?_⟩
    unfold aiChallengeReply
    cases tier <;> rfl
  | committed => exact .inr ⟨_, rfl, rfl⟩

theorem Moved.config (hm : Moved J env id s t p r) : r.1.config = s.config := by
  cases hm with
  | quiet => rfl
  | minted => rfl
  | recorded => rfl
  | committed => rfl

end Interleaving

/-- The server after a schedule: at each entry, the handler of that number takes the turn. -/
def served (J : SerdeJson) (env : AiEnv) (zk : ZkEnv) (kernel : RegistryState) (config : Config)
    (schedule : List (ℕ × Turn)) : Kit.Threads Server Phase :=
  let m := (handlers J env zk).threads (.boot kernel config)
  m.run m.init schedule

section Served

variable {J : SerdeJson} {env : AiEnv} {zk : ZkEnv} {kernel : RegistryState} {config : Config}

theorem served_step (before : List (ℕ × Turn)) (id : ℕ) (turn : Turn) :
    served J env zk kernel config (before ++ [(id, turn)]) =
      (handlers J env zk).move (served J env zk kernel config before) id turn :=
  Kit.Machine.run_append _ _ _ _

theorem sound_served (schedule : List (ℕ × Turn)) :
    Kit.Program.Holds (Server.Sound env) (ThreadSound env)
      (served J env zk kernel config schedule) := by
  induction schedule using List.reverseRecOn with
  | nil => exact ⟨⟨.nil, nofun, nofun⟩, fun id => ⟨trivial, nofun⟩⟩
  | append_singleton before i ih =>
    rw [served_step]
    let w := served J env zk kernel config before
    have hm := moved_step J env zk i.1 w.shared (w.thread i.1) i.2
    exact ih.move (hm.sound ih.shared (ih.thread i.1)) fun j hj hp => hm.sound_other hj hp

theorem config_served (schedule : List (ℕ × Turn)) :
    (served J env zk kernel config schedule).shared.config = config := by
  induction schedule using List.reverseRecOn with
  | nil => rfl
  | append_singleton before i ih =>
    rw [served_step]
    exact (moved_step J env zk i.1 _ _ i.2).config.trans ih

/-- After a move that changes the store, its handler answers with success, now and later. -/
theorem answered_of_store {before : List (ℕ × Turn)} {id : ℕ} {turn : Turn}
    (h : (served J env zk kernel config (before ++ [(id, turn)])).shared.ai ≠
      (served J env zk kernel config before).shared.ai) (after : List (ℕ × Turn)) :
    ∃ reply, reply.status = 200 ∧
      (served J env zk kernel config (before ++ (id, turn) :: after)).thread id =
        .answered reply := by
  let w := served J env zk kernel config before
  have hm := moved_step J env zk id w.shared (w.thread id) turn
  rw [served_step] at h
  rcases hm.store with hai | ⟨reply, hans, hok⟩
  · exact absurd hai h
  · refine ⟨reply, hok, ?_⟩
    have hthread : (served J env zk kernel config (before ++ [(id, turn)])).thread id =
        .answered reply := by
      rw [served_step, Kit.Program.move_thread_self]
      exact hans
    have hfinal : (handlers J env zk).Final
        ((served J env zk kernel config (before ++ [(id, turn)])).thread id) := by
      rw [hthread]
      exact final_answered J env zk reply
    have hrun := Kit.Program.run_of_final (s := .boot kernel config) hfinal after
    rw [← hthread, ← hrun, ← List.singleton_append, ← List.append_assoc]
    exact congrArg (Kit.Threads.thread · id) (Kit.Machine.run_append _ _ _ _)

end Served

/-- Submissions and mints in any number and any interleaving: no nonce has two stored runs; every
stored run is verified, and was recorded by the handler that answered with its id; and a handler
that answers with an error left the store as it was at each of its moves. -/
theorem stored_runs_verified (J : SerdeJson) (env : AiEnv) (zk : ZkEnv) (kernel : RegistryState)
    (config : Config) (schedule : List (ℕ × Turn)) :
    let w := served J env zk kernel config
    ((w schedule).shared.ai.runs.map AiRunRecord.nonce).Nodup ∧
    (∀ r ∈ (w schedule).shared.ai.runs, ∃ ev ∈ (w schedule).shared.evidence, ev.run = r ∧
      ev.Verified env config.aiK ∧ (w schedule).thread ev.handler = .answered (runReply r)) ∧
    ∀ before id turn after reply, schedule = before ++ (id, turn) :: after →
      (w schedule).thread id = .answered reply → reply.status ≠ 200 →
      (w (before ++ [(id, turn)])).shared.ai = (w before).shared.ai := by
  intro w
  have hs : Kit.Program.Holds (Server.Sound env) (ThreadSound env) (w schedule) :=
    sound_served schedule
  refine ⟨hs.shared.single, ?_, ?_⟩
  · intro r hr
    obtain ⟨ev, hev, rfl, hv⟩ := hs.shared.evidence r hr
    rw [config_served] at hv
    exact ⟨ev, hev, rfl, hv, (hs.thread ev.handler).2 ev hev rfl⟩
  · rintro before id turn after reply rfl hans hbad
    by_contra hne
    obtain ⟨reply', hok, hans'⟩ := answered_of_store hne after
    rw [hans'] at hans
    cases hans
    exact hbad hok

end Registry
end Nockmark
