import Nockmark.Kit.Linear
import Nockmark.Registry.Fallbacks
import Nockmark.Registry.Readable

/-!
# Registry.Atomic

The AI track as a store whose operations are done at once, through every restart.

A submission takes its status check, each of its verifications and its commit at different times,
and the store changes in between. Still there is one moment at which `submit_ai_run` could have
been done as a whole: the commit, or, if the status or a win is going to be refused, the check. A
restart is an operation too: the store becomes what the journal of all appends has left readable.

* `AiOp.perform`: the operations, one after the other.
* `screen`: all that a submission is checked for before its commit.
* `AiTrack`, `aiTrack`: the store, with the journal for its file.
* `Phase.Owes`: what a handler is bound to answer.
* `Server.Known`, `Phase.Known`: a challenge is recorded once, so that between the check and the
  commit of a submission its target stays the same.
* `linear_handler`: every move is quiet, or the point of one operation.
-/

namespace Nockmark
namespace Registry

open Kernel (RegistryState)
open Kit.Journal (Stands State)
open Tock (Bytes32)

/-! ### Operations -/

inductive AiCall where
  | challenge (q : Query) (statement : Statement) (tier : Option Tier) (nonce : UInt64)
  | run (req : AiRequest)

/-- A call, with the clock that it reads and how its append ends. -/
structure AiOp where
  call : AiCall
  nowMs : UInt64
  a : Append
  ioError : String

/-- The answer to the first win that is refused; `i` is the index of the next one. -/
def verifyWins (env : AiEnv) (req : AiRequest) (target : Bytes32) :
    ℕ → List (AiWinSubmission × List UInt8) → Option Reply
  | _, [] => none
  | i, (win, blob) :: rest =>
    match req.statement.verify env (challenge32 env.blake3 req.nonce) target win.extranonce
        blob with
    | .error e => some (bad s!"win {Kit.dec i}: {e}")
    | .ok () => verifyWins env req target (i + 1) rest

/-- `submit_ai_run` before its commit: the challenge, or the refusal. -/
def screen (env : AiEnv) (cfg : Config) (ai : AiStore) (req : AiRequest) (nowMs : UInt64) :
    Except Reply PendingChallenge :=
  match challengeStatus ai req.nonce nowMs with
  | .error reason => .error (bad reason)
  | .ok p =>
    let target := p.target.getD (cfg.target req.statement)
    match verifyWins env req target 0 (req.sub.wins.zip req.blobs) with
    | some r => .error r
    | none => .ok p

/-- The operation with nothing in between: what it appends, and its answer. A challenge that cannot
be recorded is not answered. -/
def AiOp.perform (env : AiEnv) (cfg : Config) (ai : AiStore) (o : AiOp) :
    Option (Append × Event) × Option Reply :=
  match o.call with
  | .challenge _ statement tier nonce =>
    (some (o.a, .challenge nonce ⟨o.nowMs, tier.map Tier.target⟩),
      if o.a.ok then some (aiChallengeReply env cfg statement nonce tier) else none)
  | .run req =>
    match screen env cfg ai req o.nowMs with
    | .error r => (none, some r)
    | .ok p =>
      let run := newRun ai (req.submission (p.target.getD (cfg.target req.statement))) p o.nowMs
      (some (o.a, .run run),
        some (if o.a.ok then runReply run else internal s!"ai store error: {o.ioError}"))

/-! ### The track -/

/-- The store of the running process, and what became of the appends of all. -/
structure AiTrack where
  config : Config
  ai : AiStore
  log : State Event

inductive TrackOp where
  | op (o : AiOp)
  | restart (config : Config)

def AiTrack.append (J : SerdeJson) (w : AiTrack) : Option (Append × Event) → AiTrack
  | none => w
  | some (a, e) =>
    { w with
      ai := if a.ok then w.ai.apply e else w.ai
      log := w.log.write J.format e (a.bytes J e) }

def AiTrack.step (J : SerdeJson) (env : AiEnv) (w : AiTrack) : TrackOp → AiTrack
  | .op o => w.append J (o.perform env w.config w.ai).1
  | .restart config => ⟨config, replay w.log.readable, w.log⟩

def aiTrack (J : SerdeJson) (env : AiEnv) (config : Config) :
    Kit.Spec AiTrack TrackOp (Option Reply) where
  init := ⟨config, .empty, .empty⟩
  step := AiTrack.step J env
  reply w
    | .op o => (o.perform env w.config w.ai).2
    | .restart _ => none

/-- The operation that a move stands for. -/
def point (env : AiEnv) (s : Server) : Phase → Turn → Option AiOp
  | .recording q statement tier nonce, .record nowMs a =>
    some ⟨.challenge q statement tier nonce, nowMs, a, ""⟩
  | .checking req, .check nowMs =>
    match screen env s.config s.ai req nowMs with
    | .error _ => some ⟨.run req, nowMs, .written, ""⟩
    | .ok _ => none
  | .verifying req _ [] _, .commit nowMs a ioError => some ⟨.run req, nowMs, a, ioError⟩
  | _, _ => none

/-- The handlers of every process; a restart that finds no text does not come up. -/
def aiView (J : SerdeJson) (env : AiEnv) : Kit.View Lives Phase Life TrackOp where
  thread w := w.threads.thread
  point w
    | .turn id t =>
      if w.up then
        (point env w.threads.shared (w.threads.thread id) t).map fun o => (some id, .op o)
      else none
    | .restart _ config =>
      match load J w.threads.shared.disk with
      | .ok _ => some (none, .restart config)
      | _ => none

/-- The handler answers `r`, or fails without an answer of its own. -/
def Phase.Owes (env : AiEnv) (r : Option Reply) : Phase → Prop
  | .preparing req target =>
    r ≠ none ∧ verifyWins env req target 0 (req.sub.wins.zip req.blobs) = r
  | .verifying req target rest accepted =>
    r ≠ none ∧ verifyWins env req target accepted.length rest = r
  | .answered reply => r = some reply ∨ reply.status = 500
  | .gone => True
  | _ => False

/-! ### A challenge is recorded once -/

def AiStore.Knows (ai : AiStore) (nonce : UInt64) : Prop :=
  nonce ∈ ai.used ∨ nonce ∈ ai.pending

structure Server.Known (s : Server) : Prop where
  distinct : (s.minted.map Prod.snd).Nodup
  minted : ∀ nonce, s.ai.Knows nonce → nonce ∈ s.minted.map Prod.snd

/-- The target of a submission's check is still that of its challenge. -/
def Holding (s : Server) (req : AiRequest) (target : Bytes32) : Prop :=
  s.ai.Knows req.nonce ∧
    ∀ p, s.ai.pending.lookup req.nonce = some p →
      p.target.getD (s.config.target req.statement) = target

def Phase.Known (id : ℕ) (s : Server) : Phase → Prop
  | .recording _ _ _ nonce => (id, nonce) ∈ s.minted ∧ ¬ s.ai.Knows nonce
  | .preparing req target => Holding s req target
  | .verifying req target _ _ => Holding s req target
  | _ => True

theorem knows_challenge {ai : AiStore} {n nonce : UInt64} {p : PendingChallenge} :
    (ai.apply (.challenge n p)).Knows nonce ↔ nonce = n ∨ ai.Knows nonce := by
  simp only [AiStore.Knows, AiStore.apply, Finmap.mem_insert]
  tauto

theorem knows_run {ai : AiStore} {r : AiRunRecord} (h : ai.Knows r.nonce) {nonce : UInt64} :
    (ai.apply (.run r)).Knows nonce ↔ ai.Knows nonce := by
  simp only [AiStore.Knows, AiStore.apply, Finmap.mem_erase, Finset.mem_insert]
  constructor
  · rintro ((rfl | hu) | ⟨-, hp⟩)
    · exact h
    · exact .inl hu
    · exact .inr hp
  · rintro (hu | hp)
    · exact .inl (.inr hu)
    · by_cases hn : nonce = r.nonce
      · exact .inl (.inl hn)
      · exact .inr ⟨hn, hp⟩

theorem knows_of_status {ai : AiStore} {nonce nowMs : UInt64} {p : PendingChallenge}
    (h : challengeStatus ai nonce nowMs = .ok p) : ai.Knows nonce := by
  obtain ⟨-, hl, -⟩ := challengeStatus_eq_ok h
  exact .inr (Finmap.mem_iff.mpr ⟨p, hl⟩)

/-- Another handler's challenge. -/
theorem Holding.challenge {s s' : Server} {req : AiRequest} {target : Bytes32}
    (h : Holding s req target) {n : UInt64} {p : PendingChallenge} (hn : ¬ s.ai.Knows n)
    (hai : s'.ai = s.ai.apply (.challenge n p)) (hcfg : s'.config = s.config) :
    Holding s' req target := by
  have hne : req.nonce ≠ n := fun heq => hn (heq ▸ h.1)
  rw [Holding, hai, hcfg]
  refine ⟨knows_challenge.mpr (.inr h.1), ?_⟩
  intro p' hp'
  exact h.2 p' ((Finmap.lookup_insert_of_ne _ hne).symm.trans hp')

theorem Holding.run {s s' : Server} {req : AiRequest} {target : Bytes32} (h : Holding s req target)
    {r : AiRunRecord} (hr : s.ai.Knows r.nonce) (hai : s'.ai = s.ai.apply (.run r))
    (hcfg : s'.config = s.config) : Holding s' req target := by
  rw [Holding, hai, hcfg]
  refine ⟨(knows_run hr).mpr h.1, ?_⟩
  intro p hp
  by_cases hn : req.nonce = r.nonce
  · rw [hn, show (s.ai.apply (.run r)).pending.lookup r.nonce = none from
      Finmap.lookup_erase _ _] at hp
    cases hp
  · exact h.2 p ((Finmap.lookup_erase_ne hn).symm.trans hp)

theorem Local.known {env : AiEnv} {s : Server} {p p' : Phase} (h : Local env s.toAppState p p')
    {id : ℕ} (hp : p.Known id s) : p'.Known id s := by
  cases h with
  | stay => exact hp
  | gone => trivial
  | answer => trivial
  | newChallenge => trivial
  | submitZk => trivial
  | submit => trivial
  | check hc =>
    refine ⟨knows_of_status hc, ?_⟩
    intro p' hp'
    rw [(challengeStatus_eq_ok hc).2.1] at hp'
    cases hp'
    rfl
  | prepare => exact hp
  | verify => exact hp

section Moves

variable {J : SerdeJson} {env : AiEnv} {id : ℕ} {s : Server} {t : Turn} {p : Phase}
  {r : Server × Phase}

theorem Moved.minted_suffix (hm : Moved J env id s t p r) : s.minted <:+ r.1.minted := by
  cases hm with
  | quiet => exact List.suffix_rfl
  | minted => exact List.suffix_cons _ _
  | recorded => exact List.suffix_rfl
  | committed => exact List.suffix_rfl

theorem Moved.known (hm : Moved J env id s t p r) (hd : (r.1.minted.map Prod.snd).Nodup)
    (hs : s.Known) (hp : p.Known id s) : r.1.Known ∧ r.2.Known id r.1 := by
  cases hm with
  | quiet hl kernel disk => exact ⟨⟨hs.distinct, hs.minted⟩, hl.known hp⟩
  | minted _ _ hp' =>
    refine ⟨⟨hd, fun nonce hn => List.mem_cons_of_mem _ (hs.minted nonce hn)⟩, ?_⟩
    rcases hp' with ⟨-, rfl⟩ | ⟨reply, rfl⟩
    · refine ⟨List.mem_cons_self, ?_⟩
      intro hn
      exact (List.nodup_cons.mp hd).1 (hs.minted _ hn)
    · trivial
  | recorded =>
    refine ⟨⟨hs.distinct, ?_⟩, trivial⟩
    intro nonce hn
    rcases knows_challenge.mp hn with rfl | hn
    · exact List.mem_map_of_mem (f := Prod.snd) hp.1
    · exact hs.minted nonce hn
  | committed hc hrun =>
    subst hrun
    refine ⟨⟨hs.distinct, ?_⟩, trivial⟩
    intro nonce hn
    exact hs.minted nonce ((knows_run (knows_of_status hc)).mp hn)

/-- A nonce has one minter, and its challenge is recorded by it. -/
theorem Moved.known_other (hm : Moved J env id s t p r) (hs : s.Known) (hp : p.Known id s) {j : ℕ}
    (hj : j ≠ id) {p' : Phase} (hp' : p'.Known j s) : p'.Known j r.1 := by
  cases hm with
  | quiet => exact hp'
  | minted =>
    cases p' with
    | recording => exact ⟨List.mem_cons_of_mem _ hp'.1, hp'.2⟩
    | _ => exact hp'
  | recorded q statement tier nonce nowMs =>
    obtain ⟨hmint, hno⟩ := hp
    cases p' with
    | recording q' statement' tier' nonce' =>
      refine ⟨hp'.1, ?_⟩
      intro hn
      rcases knows_challenge.mp hn with rfl | hn
      · exact hj (congrArg Prod.fst (List.inj_on_of_nodup_map hs.distinct hp'.1 hmint rfl))
      · exact hp'.2 hn
    | preparing => exact Holding.challenge hp' hno rfl rfl
    | verifying => exact Holding.challenge hp' hno rfl rfl
    | _ => trivial
  | committed hc hrun =>
    subst hrun
    have hk := knows_of_status hc
    cases p' with
    | recording => exact ⟨hp'.1, fun hn => hp'.2 ((knows_run hk).mp hn)⟩
    | preparing => exact Holding.run hp' hk rfl rfl
    | verifying => exact Holding.run hp' hk rfl rfl
    | _ => trivial

end Moves

section Served

variable {J : SerdeJson} {env : AiEnv} {zk : ZkEnv} {kernel : RegistryState} {config : Config}

theorem known_served {schedule : List (ℕ × Turn)}
    (hd : ((served J env zk kernel config schedule).shared.minted.map Prod.snd).Nodup) :
    Kit.Program.Holds Server.Known (fun id s p => p.Known id s)
      (served J env zk kernel config schedule) := by
  induction schedule using List.reverseRecOn with
  | nil =>
    refine ⟨⟨.nil, ?_⟩, fun _ => trivial⟩
    rintro nonce (hu | hp)
    · cases hu
    · cases hp
  | append_singleton before i ih =>
    rw [served_step] at hd ⊢
    let w := served J env zk kernel config before
    have hm := moved_step J env zk i.1 w.shared (w.thread i.1) i.2
    have hw := ih (hd.sublist (hm.minted_suffix.sublist.map _))
    exact hw.move (hm.known hd hw.shared (hw.thread i.1)) fun j hj hp =>
      hm.known_other hw.shared (hw.thread i.1) hj hp

theorem minted_served_suffix (before after : List (ℕ × Turn)) :
    (served J env zk kernel config before).shared.minted <:+
      (served J env zk kernel config (before ++ after)).shared.minted := by
  induction after using List.reverseRecOn with
  | nil => rw [List.append_nil]
  | append_singleton after i ih =>
    rw [← List.append_assoc, served_step]
    exact ih.trans (moved_step J env zk i.1 _ _ i.2).minted_suffix

end Served

/-! ### Every move -/

/-- The wins before the rest were accepted, so the first refusal is in the rest. -/
theorem verifyWins_accepted {env : AiEnv} {req : AiRequest} {target : Bytes32}
    {done rest : List (AiWinSubmission × List UInt8)} {accepted : List Accepted}
    (h : List.Forall₂ (AcceptedFor env req target) done accepted) (i : ℕ) :
    verifyWins env req target i (done ++ rest) =
      verifyWins env req target (i + accepted.length) rest := by
  induction h generalizing i with
  | nil => rfl
  | @cons winBlob a done accepted ha _ ih =>
    have hok : req.statement.verify env (challenge32 env.blake3 req.nonce) target
        winBlob.1.extranonce winBlob.2 = .ok () := by
      rw [← ha.statement, ← ha.challenge, ← ha.target, ← ha.attempt, ← ha.blob]
      exact ha.ok
    rw [List.cons_append, verifyWins, hok]
    simp only [ih, List.length_cons]
    congr 1
    omega

/-- A handler that is about to commit has all its wins accepted, at the target of its challenge. -/
theorem screen_of_sound {env : AiEnv} {id : ℕ} {s : Server} {req : AiRequest} {target : Bytes32}
    {accepted : List Accepted}
    (hs : (Phase.verifying req target [] accepted).Sound env s.config.aiK)
    (hk : (Phase.verifying req target [] accepted).Known id s) (nowMs : UInt64) :
    screen env s.config s.ai req nowMs =
      match challengeStatus s.ai req.nonce nowMs with
      | .error reason => .error (bad reason)
      | .ok p => .ok p := by
  obtain ⟨-, done, heq, hacc⟩ := hs
  have hwins : verifyWins env req target 0 (req.sub.wins.zip req.blobs) = none := by
    rw [← heq, verifyWins_accepted hacc, verifyWins]
  rw [screen]
  cases hc : challengeStatus s.ai req.nonce nowMs with
  | error reason => rfl
  | ok p =>
    have ht := hk.2 p (challengeStatus_eq_ok hc).2.1
    simp only [ht, hwins]

section Linear

variable {J : SerdeJson} {env : AiEnv} {zk : ZkEnv} {id : ℕ} {s : Server} {p : Phase} {t : Turn}

/-- What an append does to the store and its file. -/
def stored (J : SerdeJson) (ai : AiStore) (disk : Disk) :
    Option (Append × Event) → AiStore × Disk
  | none => (ai, disk)
  | some (a, e) => (if a.ok then ai.apply e else ai, append J a disk e)

/-- The moves of handlers, seen as moves of the store. -/
structure LinearMove (J : SerdeJson) (env : AiEnv) (zk : ZkEnv) (id : ℕ) (s : Server) (p : Phase)
    (t : Turn) : Prop where
  quiet : point env s p t = none → ((handlerStep J env zk id s p t).1.ai,
    (handlerStep J env zk id s p t).1.disk) = (s.ai, s.disk)
  done : ∀ o, point env s p t = some o → ((handlerStep J env zk id s p t).1.ai,
      (handlerStep J env zk id s p t).1.disk) =
        stored J s.ai s.disk (o.perform env s.config s.ai).1 ∧
    (handlerStep J env zk id s p t).2.Owes env (o.perform env s.config s.ai).2
  owes : ∀ r, p.Owes env r →
    point env s p t = none ∧ (handlerStep J env zk id s p t).2.Owes env r

theorem linear_quiet (hpoint : point env s p t = none)
    (hai : (handlerStep J env zk id s p t).1.ai = s.ai)
    (hdisk : (handlerStep J env zk id s p t).1.disk = s.disk)
    (howes : ∀ r, p.Owes env r → (handlerStep J env zk id s p t).2.Owes env r) :
    LinearMove J env zk id s p t := by
  refine ⟨fun _ => Prod.ext hai hdisk, ?_, fun r hr => ⟨hpoint, howes r hr⟩⟩
  intro o ho
  cases hpoint.symm.trans ho

theorem linear_point {o : AiOp} (hpoint : point env s p t = some o) (hp : ∀ r, ¬ p.Owes env r)
    (habs : ((handlerStep J env zk id s p t).1.ai, (handlerStep J env zk id s p t).1.disk) =
      stored J s.ai s.disk (o.perform env s.config s.ai).1)
    (howes : (handlerStep J env zk id s p t).2.Owes env (o.perform env s.config s.ai).2) :
    LinearMove J env zk id s p t := by
  refine ⟨?_, ?_, fun r hr => absurd hr (hp r)⟩
  · intro hn
    cases hn.symm.trans hpoint
  · intro o' ho'
    cases hpoint.symm.trans ho'
    exact ⟨habs, howes⟩

theorem linear_stay (hpoint : point env s p t = none)
    (hstep : handlerStep J env zk id s p t = (s, p)) : LinearMove J env zk id s p t := by
  refine linear_quiet hpoint ?_ ?_ ?_
  · rw [hstep]
  · rw [hstep]
  · rw [hstep]
    exact fun _ h => h

theorem linear_hangUp (hpoint : point env s p t = none)
    (hstep : handlerStep J env zk id s p t = (s, .gone)) : LinearMove J env zk id s p t := by
  refine linear_quiet hpoint ?_ ?_ ?_
  · rw [hstep]
  · rw [hstep]
  · rw [hstep]
    exact fun _ _ => trivial

theorem linear_mint (q : Query) (statement : Statement) (tier : Option Tier) (eny now : Nat) :
    LinearMove J env zk id s (.minting q statement tier) (.mint eny now) := by
  refine linear_quiet rfl ?_ ?_ nofun
  · simp only [handlerStep, Server.mint]
    split <;> rfl
  · simp only [handlerStep, Server.mint]
    split <;> rfl

theorem linear_poke (nonce : UInt64) (sub : RunSubmission) (eny now : Nat) :
    LinearMove J env zk id s (.poking nonce sub) (.poke eny now) := by
  refine linear_quiet rfl ?_ ?_ nofun
  · simp only [handlerStep, Server.poke]
    split <;> rfl
  · simp only [handlerStep, Server.poke]
    split <;> rfl

theorem linear_record (q : Query) (statement : Statement)
    (tier : Option Tier) (nonce nowMs : UInt64) (a : Append) :
    LinearMove J env zk id s (.recording q statement tier nonce) (.record nowMs a) := by
  refine linear_point rfl (fun _ => not_false) ?_ ?_
  · cases a <;> rfl
  · cases a with
    | written => exact .inl rfl
    | failed n => trivial

/-- The point of a submission that is going to be refused, whatever the others do. -/
theorem linear_check (req : AiRequest) (nowMs : UInt64) :
    LinearMove J env zk id s (.checking req) (.check nowMs) := by
  have hphase : ∀ r, screen env s.config s.ai req nowMs = .error r →
      (check s.toAppState req nowMs).Owes env (some r) := by
    intro r hr
    unfold screen at hr
    unfold check
    cases hc : challengeStatus s.ai req.nonce nowMs with
    | error reason =>
      simp only [hc] at hr ⊢
      cases hr
      exact .inl rfl
    | ok pending =>
      simp only [hc] at hr ⊢
      split at hr
      · rename_i r' hv
        cases hr
        exact ⟨Option.some_ne_none _, hv⟩
      · cases hr
  cases hr : screen env s.config s.ai req nowMs with
  | error r =>
    have hperform : (⟨.run req, nowMs, .written, ""⟩ : AiOp).perform env s.config s.ai =
        (none, some r) := by
      simp only [AiOp.perform, hr]
    refine linear_point (o := ⟨.run req, nowMs, .written, ""⟩) ?_ (fun _ => not_false) ?_ ?_
    · simp only [point, hr]
    · rw [hperform]
      rfl
    · rw [hperform]
      exact hphase r hr
  | ok target =>
    refine linear_quiet ?_ rfl rfl nofun
    simp only [point, hr]

theorem linear_context (req : AiRequest) (target : Bytes32) (error : Option String) :
    LinearMove J env zk id s (.preparing req target) (.context error) := by
  refine linear_quiet rfl rfl rfl ?_
  intro r hr
  cases error with
  | none => exact hr
  | some e => exact .inr rfl

theorem linear_verify (req : AiRequest) (target : Bytes32) (win : AiWinSubmission)
    (blob : List UInt8) (rest : List (AiWinSubmission × List UInt8)) (accepted : List Accepted)
    (joinError : Option String) :
    LinearMove J env zk id s (.verifying req target ((win, blob) :: rest) accepted)
      (.verify joinError) := by
  refine linear_quiet rfl rfl rfl ?_
  rintro r ⟨hr, hwins⟩
  simp only [handlerStep, verifyWin]
  cases joinError with
  | some e => exact .inr rfl
  | none =>
    rw [verifyWins] at hwins
    cases hv : req.statement.verify env (challenge32 env.blake3 req.nonce) target win.extranonce
        blob with
    | error e =>
      rw [hv] at hwins
      exact .inl hwins.symm
    | ok u =>
      rw [hv] at hwins
      exact ⟨hr, by rw [List.length_append]; exact hwins⟩

theorem linear_commit {req : AiRequest} {target : Bytes32} {accepted : List Accepted}
    (hs : (Phase.verifying req target [] accepted).Sound env s.config.aiK)
    (hk : (Phase.verifying req target [] accepted).Known id s) (nowMs : UInt64) (a : Append)
    (ioError : String) :
    LinearMove J env zk id s (.verifying req target [] accepted) (.commit nowMs a ioError) := by
  have hscreen := screen_of_sound hs hk nowMs
  have hno : ∀ r, ¬ (Phase.verifying req target [] accepted).Owes env r := by
    intro r hr
    exact hr.1 hr.2.symm
  cases hc : challengeStatus s.ai req.nonce nowMs with
  | error reason =>
    rw [hc] at hscreen
    have hcommit : commitRun J a s.ai s.disk (req.submission target) nowMs =
        (.rejected reason, s.ai, s.disk) := by
      rw [commitRun, show (req.submission target).nonce = req.nonce from rfl, hc]
    refine linear_point (o := ⟨.run req, nowMs, a, ioError⟩) rfl hno ?_ ?_
    · simp only [handlerStep, Server.commit, hcommit, AiOp.perform, hscreen]
      rfl
    · simp only [handlerStep, Server.commit, hcommit, AiOp.perform, hscreen]
      exact .inl rfl
  | ok pending =>
    rw [hc] at hscreen
    have ht := hk.2 pending (challengeStatus_eq_ok hc).2.1
    have hc' : challengeStatus s.ai (req.submission target).nonce nowMs = .ok pending := hc
    refine linear_point (o := ⟨.run req, nowMs, a, ioError⟩) rfl hno ?_ ?_
    · simp only [handlerStep, Server.commit, AiOp.perform, hscreen, ht]
      cases a with
      | written => simp [commitRun_written J s.disk hc', stored, Append.ok]
      | failed n => simp [commitRun, hc', stored, Append.ok]
    · simp only [handlerStep, Server.commit, AiOp.perform, hscreen, ht]
      cases a with
      | written => simp [commitRun_written J s.disk hc', Phase.Owes, Append.ok]
      | failed n => simp [commitRun, hc', Phase.Owes, Append.ok]

theorem linear_handler (hs : p.Sound env s.config.aiK) (hk : p.Known id s) (t : Turn) :
    LinearMove J env zk id s p t := by
  cases p with
  | idle =>
    cases t with
    | newChallenge q => exact linear_quiet rfl rfl rfl nofun
    | submit q body => exact linear_quiet rfl rfl rfl nofun
    | _ => exact linear_stay rfl rfl
  | minting q statement tier =>
    cases t with
    | mint eny now => exact linear_mint q statement tier eny now
    | hangUp => exact linear_hangUp rfl rfl
    | _ => exact linear_stay rfl rfl
  | recording q statement tier nonce =>
    cases t with
    | record nowMs a => exact linear_record q statement tier nonce nowMs a
    | hangUp => exact linear_hangUp rfl rfl
    | _ => exact linear_stay rfl rfl
  | poking nonce sub =>
    cases t with
    | poke eny now => exact linear_poke nonce sub eny now
    | hangUp => exact linear_hangUp rfl rfl
    | _ => exact linear_stay rfl rfl
  | checking req =>
    cases t with
    | check nowMs => exact linear_check req nowMs
    | hangUp => exact linear_hangUp rfl rfl
    | _ => exact linear_stay rfl rfl
  | preparing req target =>
    cases t with
    | context error => exact linear_context req target error
    | hangUp => exact linear_hangUp rfl rfl
    | _ => exact linear_stay rfl rfl
  | verifying req target rest accepted =>
    cases rest with
    | nil =>
      cases t with
      | commit nowMs a ioError => exact linear_commit hs hk nowMs a ioError
      | hangUp => exact linear_hangUp rfl rfl
      | _ => exact linear_stay rfl rfl
    | cons winBlob rest =>
      cases t with
      | verify joinError => exact linear_verify req target _ _ rest accepted joinError
      | hangUp => exact linear_hangUp rfl rfl
      | _ => exact linear_stay rfl rfl
  | answered reply => exact linear_stay (by cases t <;> rfl) rfl
  | gone => exact linear_stay (by cases t <;> rfl) rfl

end Linear

end Registry
end Nockmark
