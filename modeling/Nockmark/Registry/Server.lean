import Nockmark.Kit.Threads
import Nockmark.Registry.Challenge
import Nockmark.Registry.Submit

/-!
# Registry.Server

The server (`AppState` and the handlers of the two limited routes in `registry/src/http.rs`) with
any number of requests in progress.

A handler is a thread. Its phases are the points where it awaits: a lock, the verifier context, or
the verification of a win; one move takes it to the next such point. The environment chooses which
handler moves, what clocks and entropy it reads, how its append ends and which tasks fail, and a
client may hang up at any await.

* `handlerMove_step`: the moves, one for each turn that a phase waits for.
* `Local`: the moves that leave the store alone.
* `moved_step`: every move is local, a mint, a recorded challenge or a recorded run.
-/

namespace Nockmark
namespace Registry

open Kit.Json (Value Members)
open Kernel (RegistryState)
open Tock (Bytes32)

structure AppState where
  kernel : RegistryState
  ai : AiStore
  disk : Disk
  config : Config

/-- An AI challenge as it was answered. -/
structure Issue where
  q : Query
  statement : Statement
  nonce : UInt64
  tier : Option Tier
  reply : Reply

/-- A call of a statement's verifier that accepted. -/
structure Accepted where
  statement : Statement
  challenge : Bytes32
  target : Bytes32
  attempt : UInt64
  blob : List UInt8

/-- A recorded run, with the handler, the request and the verifications that it came from. -/
structure Evidence where
  handler : ℕ
  req : AiRequest
  run : AiRunRecord
  accepted : List Accepted

/-- The state that the handlers share, with the history that no handler reads: which handler
minted which nonce, and what was logged, issued and recorded. -/
structure Server extends AppState where
  minted : List (ℕ × UInt64)
  log : List Event
  issued : List Issue
  evidence : List Evidence

inductive Phase where
  | idle
  | minting (q : Query) (statement : Statement) (tier : Option Tier)
  | recording (q : Query) (statement : Statement) (tier : Option Tier) (nonce : UInt64)
  | poking (nonce : UInt64) (sub : RunSubmission)
  | checking (req : AiRequest)
  | preparing (req : AiRequest) (target : Bytes32)
  | verifying (req : AiRequest) (target : Bytes32) (rest : List (AiWinSubmission × List UInt8))
      (accepted : List Accepted)
  | answered (reply : Reply)
  | gone

/-- A body, as either track's submission. -/
structure Body where
  asRun : Except String RunSubmission
  asAiRun : Except String AiRunSubmission

inductive Turn where
  | newChallenge (q : Query)
  | mint (eny now : Nat)
  | record (nowMs : UInt64) (a : Append)
  | submit (q : Query) (body : Body)
  | poke (eny now : Nat)
  | check (nowMs : UInt64)
  | context (error : Option String)
  | verify (joinError : Option String)
  | commit (nowMs : UInt64) (a : Append) (ioError : String)
  | hangUp

/-! ### The moves of a handler -/

def newChallenge (env : AiEnv) (q : Query) : Phase :=
  match validateChallenge env q with
  | .error r => .answered r
  | .ok (statement, tier) => .minting q statement tier

/-- `expect` makes a failed mint a panic. -/
def Server.mint (s : Server) (id : ℕ) (q : Query) (statement : Statement) (tier : Option Tier)
    (eny now : Nat) : Server × Phase :=
  match Kernel.mintChallenge s.kernel eny now with
  | (.error _, kernel) => ({ s with kernel }, .gone)
  | (.ok nonce, kernel) =>
    ({ s with kernel, minted := (id, nonce) :: s.minted },
      if isAiTrack q then .recording q statement tier nonce
      else .answered (zkChallengeReply s.config nonce))

/-- `expect` makes a failed append a panic. -/
def Server.record (J : SerdeJson) (env : AiEnv) (s : Server) (q : Query) (statement : Statement)
    (tier : Option Tier) (nonce nowMs : UInt64) (a : Append) : Server × Phase :=
  let target := tier.map Tier.target
  match recordChallenge J a s.ai s.disk nonce nowMs target with
  | (false, ai, disk) => ({ s with ai, disk }, .gone)
  | (true, ai, disk) =>
    let reply := aiChallengeReply env s.config statement nonce tier
    ({ s with
        ai
        disk
        log := s.log ++ [.challenge nonce ⟨nowMs, target⟩]
        issued := ⟨q, statement, nonce, tier, reply⟩ :: s.issued },
      .answered reply)

/-- `submit_run` up to the first lock. -/
def submit (env : AiEnv) (zk : ZkEnv) (cfg : Config) (q : Query) (body : Body) : Phase :=
  if isAiTrack q then
    match statementFromQuery env.debug q with
    | .error e => .answered (bad e)
    | .ok statement =>
      match validateAi env cfg.aiK statement body.asAiRun with
      | .error r => .answered r
      | .ok req => .checking req
  else
    match validate zk cfg.k body.asRun with
    | .error r => .answered r
    | .ok (nonce, sub) => .poking nonce sub

def Server.poke (zk : ZkEnv) (s : Server) (nonce : UInt64) (sub : RunSubmission) (eny now : Nat) :
    Server × Phase :=
  match Kernel.submitRun s.kernel eny now nonce sub.hardware sub.proverVersion s.config.k
    sub.elapsedMs with
  | none => (s, .gone)
  | some (a, kernel) => ({ s with kernel }, .answered (answer zk a))

/-- The wins are verified at the challenge's own target, if it has one. -/
def check (s : AppState) (req : AiRequest) (nowMs : UInt64) : Phase :=
  match challengeStatus s.ai req.nonce nowMs with
  | .error reason => .answered (bad reason)
  | .ok pending => .preparing req (pending.target.getD (s.config.target req.statement))

def Statement.verifierName : Statement → String
  | .dense => "ai verifier"
  | .canonicalMoe => "ai moe verifier"

def prepare (req : AiRequest) (target : Bytes32) : Option String → Phase
  | some e => .answered (internal s!"{req.statement.verifierName} unavailable: {e}")
  | none => .verifying req target (req.sub.wins.zip req.blobs) []

/-- The win at index `accepted.length`. -/
def verifyWin (env : AiEnv) (req : AiRequest) (target : Bytes32) (win : AiWinSubmission)
    (blob : List UInt8) (rest : List (AiWinSubmission × List UInt8)) (accepted : List Accepted)
    (joinError : Option String) : Phase :=
  let challenge := challenge32 env.blake3 req.nonce
  let i := Kit.dec accepted.length
  match joinError with
  | some e => .answered (internal s!"win {i}: verify task failed: {e}")
  | none =>
    match req.statement.verify env challenge target win.extranonce blob with
    | .error e => .answered (bad s!"win {i}: {e}")
    | .ok () =>
      .verifying req target rest
        (accepted ++ [⟨req.statement, challenge, target, win.extranonce, blob⟩])

def AiRequest.submission (req : AiRequest) (target : Bytes32) : Submission :=
  { nonce := req.nonce
    statement := req.statement
    hardware := req.sub.hardware
    proverVersion := req.sub.proverVersion
    target
    grindElapsedMs := req.sub.grindElapsedMs
    winExtranonces := req.extranonces }

def runReply (run : AiRunRecord) : Reply := .ok (.obj (.ofList [("run_id", .num run.id)]))

def Server.commit (J : SerdeJson) (s : Server) (id : ℕ) (req : AiRequest) (target : Bytes32)
    (accepted : List Accepted) (nowMs : UInt64) (a : Append) (ioError : String) : Server × Phase :=
  match commitRun J a s.ai s.disk (req.submission target) nowMs with
  | (.recorded run, ai, disk) =>
    ({ s with
        ai
        disk
        log := s.log ++ [.run run]
        evidence := ⟨id, req, run, accepted⟩ :: s.evidence },
      .answered (runReply run))
  | (.rejected reason, ai, disk) => ({ s with ai, disk }, .answered (bad reason))
  | (.ioError, ai, disk) =>
    ({ s with ai, disk }, .answered (internal s!"ai store error: {ioError}"))

/-- A turn that the phase does not wait for changes nothing. -/
def handlerStep (J : SerdeJson) (env : AiEnv) (zk : ZkEnv) (id : ℕ) (s : Server) (p : Phase)
    (t : Turn) : Server × Phase :=
  match p with
  | .idle =>
    match t with
    | .newChallenge q => (s, newChallenge env q)
    | .submit q body => (s, submit env zk s.config q body)
    | _ => (s, p)
  | .minting q statement tier =>
    match t with
    | .mint eny now => s.mint id q statement tier eny now
    | .hangUp => (s, .gone)
    | _ => (s, p)
  | .recording q statement tier nonce =>
    match t with
    | .record nowMs a => s.record J env q statement tier nonce nowMs a
    | .hangUp => (s, .gone)
    | _ => (s, p)
  | .poking nonce sub =>
    match t with
    | .poke eny now => s.poke zk nonce sub eny now
    | .hangUp => (s, .gone)
    | _ => (s, p)
  | .checking req =>
    match t with
    | .check nowMs => (s, check s.toAppState req nowMs)
    | .hangUp => (s, .gone)
    | _ => (s, p)
  | .preparing req target =>
    match t with
    | .context error => (s, prepare req target error)
    | .hangUp => (s, .gone)
    | _ => (s, p)
  | .verifying req target [] accepted =>
    match t with
    | .commit nowMs a ioError => s.commit J id req target accepted nowMs a ioError
    | .hangUp => (s, .gone)
    | _ => (s, p)
  | .verifying req target ((win, blob) :: rest) accepted =>
    match t with
    | .verify joinError => (s, verifyWin env req target win blob rest accepted joinError)
    | .hangUp => (s, .gone)
    | _ => (s, p)
  | .answered _ => (s, p)
  | .gone => (s, p)

def handlers (J : SerdeJson) (env : AiEnv) (zk : ZkEnv) : Kit.Program Server Phase Turn :=
  ⟨.idle, handlerStep J env zk⟩

/-- A server booted in an empty data directory. -/
def Server.boot (kernel : RegistryState) (config : Config) : Server :=
  ⟨⟨kernel, .empty, none, config⟩, [], [], [], []⟩

/-! ### What a move does -/

/-- The handler has not ended. -/
def Phase.Waiting : Phase → Prop
  | .answered _ => False
  | .gone => False
  | _ => True

/-- The moves of a handler that leave the store as it is. -/
inductive Local (env : AiEnv) (s : AppState) : Phase → Phase → Prop where
  | stay (p : Phase) : Local env s p p
  | gone {p : Phase} (h : p.Waiting) : Local env s p .gone
  | answer {p : Phase} (h : p.Waiting) (reply : Reply) : Local env s p (.answered reply)
  | newChallenge {q : Query} {statement : Statement} {tier : Option Tier}
      (h : validateChallenge env q = .ok (statement, tier)) :
      Local env s .idle (.minting q statement tier)
  | submitZk (nonce : UInt64) (sub : RunSubmission) : Local env s .idle (.poking nonce sub)
  | submit {req : AiRequest} (h : req.Admitted env s.config.aiK) : Local env s .idle (.checking req)
  | check {req : AiRequest} {nowMs : UInt64} {p : PendingChallenge}
      (h : challengeStatus s.ai req.nonce nowMs = .ok p) :
      Local env s (.checking req)
        (.preparing req (p.target.getD (s.config.target req.statement)))
  | prepare (req : AiRequest) (target : Bytes32) :
      Local env s (.preparing req target) (.verifying req target (req.sub.wins.zip req.blobs) [])
  | verify {req : AiRequest} {target : Bytes32} {win : AiWinSubmission} {blob : List UInt8}
      {rest : List (AiWinSubmission × List UInt8)} {accepted : List Accepted}
      (h : req.statement.verify env (challenge32 env.blake3 req.nonce) target win.extranonce blob =
        .ok ()) :
      Local env s (.verifying req target ((win, blob) :: rest) accepted)
        (.verifying req target rest
          (accepted ++ [⟨req.statement, challenge32 env.blake3 req.nonce, target, win.extranonce,
            blob⟩]))

/-- The append of the turn, if it makes one, writes its line. -/
def Turn.Written : Turn → Prop
  | .record _ a => a = .written
  | .commit _ a _ => a = .written
  | _ => True

/-- The moves of a handler: one for each turn that a phase waits for. -/
inductive HandlerMove (J : SerdeJson) (env : AiEnv) (zk : ZkEnv) (id : ℕ) (s : Server) :
    Phase → Turn → Server × Phase → Prop where
  | stay (p : Phase) (t : Turn) : HandlerMove J env zk id s p t (s, p)
  | hangUp {p : Phase} (h : p.Waiting) : HandlerMove J env zk id s p .hangUp (s, .gone)
  | newChallenge (q : Query) :
      HandlerMove J env zk id s .idle (.newChallenge q) (s, newChallenge env q)
  | submit (q : Query) (body : Body) :
      HandlerMove J env zk id s .idle (.submit q body) (s, submit env zk s.config q body)
  | mint (q : Query) (statement : Statement) (tier : Option Tier) (eny now : Nat) :
      HandlerMove J env zk id s (.minting q statement tier) (.mint eny now)
        (s.mint id q statement tier eny now)
  | record (q : Query) (statement : Statement) (tier : Option Tier) (nonce nowMs : UInt64)
      (a : Append) : HandlerMove J env zk id s (.recording q statement tier nonce)
        (.record nowMs a) (s.record J env q statement tier nonce nowMs a)
  | poke (nonce : UInt64) (sub : RunSubmission) (eny now : Nat) :
      HandlerMove J env zk id s (.poking nonce sub) (.poke eny now) (s.poke zk nonce sub eny now)
  | check (req : AiRequest) (nowMs : UInt64) :
      HandlerMove J env zk id s (.checking req) (.check nowMs) (s, check s.toAppState req nowMs)
  | context (req : AiRequest) (target : Bytes32) (error : Option String) :
      HandlerMove J env zk id s (.preparing req target) (.context error)
        (s, prepare req target error)
  | verify (req : AiRequest) (target : Bytes32) (win : AiWinSubmission) (blob : List UInt8)
      (rest : List (AiWinSubmission × List UInt8)) (accepted : List Accepted)
      (joinError : Option String) :
      HandlerMove J env zk id s (.verifying req target ((win, blob) :: rest) accepted)
        (.verify joinError) (s, verifyWin env req target win blob rest accepted joinError)
  | commit (req : AiRequest) (target : Bytes32) (accepted : List Accepted) (nowMs : UInt64)
      (a : Append) (ioError : String) :
      HandlerMove J env zk id s (.verifying req target [] accepted) (.commit nowMs a ioError)
        (s.commit J id req target accepted nowMs a ioError)

/-- There are no others. -/
theorem handlerMove_step (J : SerdeJson) (env : AiEnv) (zk : ZkEnv) (id : ℕ) (s : Server)
    (p : Phase) (t : Turn) : HandlerMove J env zk id s p t (handlerStep J env zk id s p t) := by
  cases p with
  | idle =>
    cases t with
    | newChallenge q => exact .newChallenge q
    | submit q body => exact .submit q body
    | _ => exact .stay _ _
  | minting q statement tier =>
    cases t with
    | mint eny now => exact .mint q statement tier eny now
    | hangUp => exact .hangUp trivial
    | _ => exact .stay _ _
  | recording q statement tier nonce =>
    cases t with
    | record nowMs a => exact .record q statement tier nonce nowMs a
    | hangUp => exact .hangUp trivial
    | _ => exact .stay _ _
  | poking nonce sub =>
    cases t with
    | poke eny now => exact .poke nonce sub eny now
    | hangUp => exact .hangUp trivial
    | _ => exact .stay _ _
  | checking req =>
    cases t with
    | check nowMs => exact .check req nowMs
    | hangUp => exact .hangUp trivial
    | _ => exact .stay _ _
  | preparing req target =>
    cases t with
    | context error => exact .context req target error
    | hangUp => exact .hangUp trivial
    | _ => exact .stay _ _
  | verifying req target rest accepted =>
    cases rest with
    | nil =>
      cases t with
      | commit nowMs a ioError => exact .commit req target accepted nowMs a ioError
      | hangUp => exact .hangUp trivial
      | _ => exact .stay _ _
    | cons winBlob rest =>
      cases t with
      | verify joinError => exact .verify req target _ _ rest accepted joinError
      | hangUp => exact .hangUp trivial
      | _ => exact .stay _ _
  | answered reply => exact .stay _ _
  | gone => exact .stay _ _

theorem local_newChallenge (env : AiEnv) (s : AppState) (q : Query) :
    Local env s .idle (newChallenge env q) := by
  unfold newChallenge
  split
  · exact .answer (by trivial) _
  · rename_i h; exact .newChallenge h

theorem local_submit (env : AiEnv) (zk : ZkEnv) (s : AppState) (q : Query) (body : Body) :
    Local env s .idle (submit env zk s.config q body) := by
  unfold Registry.submit
  split
  · split
    · exact .answer (by trivial) _
    · split
      · exact .answer (by trivial) _
      · rename_i h; exact .submit (validateAi_eq_ok h)
  · split
    · exact .answer (by trivial) _
    · exact .submitZk _ _

theorem local_check (env : AiEnv) (s : AppState) (req : AiRequest) (nowMs : UInt64) :
    Local env s (.checking req) (check s req nowMs) := by
  unfold Registry.check
  split
  · exact .answer (by trivial) _
  · rename_i h; exact .check h

theorem local_prepare (env : AiEnv) (s : AppState) (req : AiRequest) (target : Bytes32)
    (error : Option String) :
    Local env s (.preparing req target) (prepare req target error) := by
  cases error with
  | some e => exact .answer (by trivial) _
  | none => exact .prepare req target

theorem local_verifyWin (env : AiEnv) (s : AppState) (req : AiRequest) (target : Bytes32)
    (win : AiWinSubmission) (blob : List UInt8) (rest : List (AiWinSubmission × List UInt8))
    (accepted : List Accepted) (joinError : Option String) :
    Local env s (.verifying req target ((win, blob) :: rest) accepted)
      (verifyWin env req target win blob rest accepted joinError) := by
  simp only [verifyWin]
  split
  · exact .answer (by trivial) _
  · split
    · exact .answer (by trivial) _
    · rename_i h; exact .verify h

/-- What a move makes of the shared state and of its handler. -/
inductive Moved (J : SerdeJson) (env : AiEnv) (id : ℕ) (s : Server) (t : Turn) :
    Phase → Server × Phase → Prop where
  | quiet {p p' : Phase} (h : Local env s.toAppState p p') (kernel : RegistryState) (disk : Disk)
      (hd : t.Written → disk = s.disk) : Moved J env id s t p ({ s with kernel, disk }, p')
  | minted {q : Query} {statement : Statement} {tier : Option Tier} {eny now : Nat}
      {nonce : UInt64} {kernel : RegistryState} {p' : Phase} (ht : t = .mint eny now)
      (h : Kernel.mintChallenge s.kernel eny now = (.ok nonce, kernel))
      (hp : isAiTrack q = true ∧ p' = .recording q statement tier nonce ∨
        ∃ reply, p' = .answered reply) :
      Moved J env id s t (.minting q statement tier)
        ({ s with kernel, minted := (id, nonce) :: s.minted }, p')
  | recorded (q : Query) (statement : Statement) (tier : Option Tier) (nonce nowMs : UInt64) :
      Moved J env id s t (.recording q statement tier nonce)
        ({ s with
            ai := s.ai.apply (.challenge nonce ⟨nowMs, tier.map Tier.target⟩)
            disk := append J .written s.disk (.challenge nonce ⟨nowMs, tier.map Tier.target⟩)
            log := s.log ++ [.challenge nonce ⟨nowMs, tier.map Tier.target⟩]
            issued :=
              ⟨q, statement, nonce, tier, aiChallengeReply env s.config statement nonce tier⟩ ::
                s.issued },
          .answered (aiChallengeReply env s.config statement nonce tier))
  | committed {req : AiRequest} {target : Bytes32} {accepted : List Accepted} {nowMs : UInt64}
      {p : PendingChallenge} {run : AiRunRecord}
      (h : challengeStatus s.ai req.nonce nowMs = .ok p)
      (hrun : run = newRun s.ai (req.submission target) p nowMs) :
      Moved J env id s t (.verifying req target [] accepted)
        ({ s with
            ai := s.ai.apply (.run run)
            disk := append J .written s.disk (.run run)
            log := s.log ++ [.run run]
            evidence := ⟨id, req, run, accepted⟩ :: s.evidence },
          .answered (runReply run))

section Moves

variable (J : SerdeJson) (env : AiEnv) (zk : ZkEnv) (id : ℕ) (s : Server)

theorem Moved.same {J : SerdeJson} {env : AiEnv} {id : ℕ} {s : Server} {t : Turn} {p p' : Phase}
    (h : Local env s.toAppState p p') : Moved J env id s t p (s, p') :=
  .quiet h s.kernel s.disk fun _ => rfl

theorem moved_mint (q : Query) (statement : Statement) (tier : Option Tier) (eny now : Nat) :
    Moved J env id s (.mint eny now) (.minting q statement tier)
      (s.mint id q statement tier eny now) := by
  unfold Server.mint
  split
  · exact .quiet (.gone (by trivial)) _ s.disk fun _ => rfl
  · rename_i nonce kernel h
    split
    · rename_i hq; exact .minted rfl h (.inl ⟨hq, rfl⟩)
    · exact .minted rfl h (.inr ⟨_, rfl⟩)

theorem moved_record (q : Query) (statement : Statement) (tier : Option Tier)
    (nonce nowMs : UInt64) (a : Append) :
    Moved J env id s (.record nowMs a) (.recording q statement tier nonce)
      (s.record J env q statement tier nonce nowMs a) := by
  cases a with
  | written =>
    simp only [Server.record, recordChallenge_ok]
    exact .recorded q statement tier nonce nowMs
  | failed n =>
    simp only [Server.record, recordChallenge, Append.ok]
    exact .quiet (.gone (by trivial)) s.kernel _ fun h => absurd h (by simp [Turn.Written])

theorem moved_poke (nonce : UInt64) (sub : RunSubmission) (t : Turn) (eny now : Nat) :
    Moved J env id s t (.poking nonce sub) (s.poke zk nonce sub eny now) := by
  unfold Server.poke
  split
  · exact .same (.gone (by trivial))
  · exact .quiet (.answer (by trivial) _) _ s.disk fun _ => rfl

theorem moved_commit (req : AiRequest) (target : Bytes32) (accepted : List Accepted)
    (nowMs : UInt64) (a : Append) (ioError : String) :
    Moved J env id s (.commit nowMs a ioError) (.verifying req target [] accepted)
      (s.commit J id req target accepted nowMs a ioError) := by
  cases hc : challengeStatus s.ai (req.submission target).nonce nowMs with
  | error reason =>
    simp only [Server.commit, commitRun, hc]
    exact .same (.answer (by trivial) _)
  | ok p =>
    cases a with
    | written =>
      simp only [Server.commit, commitRun_written J s.disk hc]
      exact .committed hc rfl
    | failed n =>
      simp only [Server.commit, commitRun, hc, Append.ok]
      exact .quiet (.answer (by trivial) _) s.kernel _ fun h => absurd h (by simp [Turn.Written])

theorem HandlerMove.moved {J : SerdeJson} {env : AiEnv} {zk : ZkEnv} {id : ℕ} {s : Server}
    {p : Phase} {t : Turn} {r : Server × Phase} (h : HandlerMove J env zk id s p t r) :
    Moved J env id s t p r := by
  cases h with
  | stay => exact .same (.stay p)
  | hangUp hw => exact .same (.gone hw)
  | newChallenge q => exact .same (local_newChallenge env s.toAppState q)
  | submit q body => exact .same (local_submit env zk s.toAppState q body)
  | mint q statement tier eny now => exact moved_mint J env id s q statement tier eny now
  | record q statement tier nonce nowMs a =>
    exact moved_record J env id s q statement tier nonce nowMs a
  | poke nonce sub eny now => exact moved_poke J env zk id s nonce sub _ eny now
  | check req nowMs => exact .same (local_check env s.toAppState req nowMs)
  | context req target error => exact .same (local_prepare env s.toAppState req target error)
  | verify req target win blob rest accepted joinError =>
    exact .same (local_verifyWin env s.toAppState req target win blob rest accepted joinError)
  | commit req target accepted nowMs a ioError =>
    exact moved_commit J env id s req target accepted nowMs a ioError

theorem moved_step (p : Phase) (t : Turn) :
    Moved J env id s t p (handlerStep J env zk id s p t) :=
  (handlerMove_step J env zk id s p t).moved

end Moves

theorem final_answered (J : SerdeJson) (env : AiEnv) (zk : ZkEnv) (reply : Reply) :
    (handlers J env zk).Final (.answered reply) := fun _ _ _ => rfl

end Registry
end Nockmark
