import Nockmark.Registry.ElapsedClaim
import Nockmark.Registry.Evidence
import Nockmark.Registry.HonestAi
import Nockmark.Registry.HonestRun
import Nockmark.Registry.Pokes
import Nockmark.Tock.Hardware
import Nockmark.Tock.Miner

/-!
# Registry.HonestZk

What an honest `tock bench --submit` run is answered, whatever else the server does meanwhile.

The kernel forgets no challenge: between the mint and the poke of a submission it is minted again
or used, and that is all. So the poke of a submission that passed the checks is refused for the use
of its nonce or for a time, and for nothing else.

* `submitRun_eq`: what the kernel answers to a submission for a challenge that it has.
* `Server.Keeps`: what the server keeps of the nonces that it minted.
* `honest_zk_run`: in every interleaving the client is told the id of its recorded run, unless the
  nonce was used, an hour went by, or the time that it claims does not fit.
-/

namespace Nockmark
namespace Registry

open Kernel (RegistryState cord directMax softCause windowMs)
open Kit.Json (Value Members)
open Tock (Client ClientJson fetchChallenge benchSubmit elapsedMs hardwareSummary trimEndSlashes)

/-! ### The body -/

/-- `from_value::<RunSubmission>` -/
def RunSubmission.fromValue : Value → Option RunSubmission
  | .obj m => do
    let nonce ← (← m.get "nonce").asStr
    let hardware ← (← m.get "hardware").asStr
    let proverVersion ← (← m.get "prover_version").asStr
    let elapsedMs ← asU64 (← m.get "elapsed_ms")
    let proofs ← (← (← m.get "proofs").asArr).mapM Value.asStr
    return ⟨nonce, hardware, proverVersion, elapsedMs, proofs⟩
  | _ => none

theorem mapM_asStr (proofs : List String) :
    proofs.mapM (Value.asStr ∘ Value.str) = some proofs := by
  induction proofs with
  | nil => rfl
  | cons p proofs ih =>
    rw [List.mapM_cons, Function.comp, Value.asStr, ← Function.comp_def, ih]
    rfl

theorem fromValue_run (sub : Tock.Submission) :
    RunSubmission.fromValue sub.value = some (received sub) := by
  simp [RunSubmission.fromValue, Tock.Submission.value, Members.ofList, Value.asStr, Value.asArr,
    asU64_num, mapM_asStr, received]

/-- The body of a request on the ZK track. -/
def runBodyOf (shape : Value → String) (v : Value) : Except String RunSubmission :=
  match RunSubmission.fromValue v with
  | some sub => .ok sub
  | none => .error (shape v)

/-- A URL without a query names no track. -/
theorem query_runUrl {lossy : List UInt8 → String} {base : String} (hbase : BaseUrl base) :
    isAiTrack (queryOf lossy (trimEndSlashes base ++ "/run")) = false := by
  have hpath : ∀ c ∈ (trimEndSlashes base ++ "/run").toList, c ≠ '?' := by
    intro c hc
    rw [String.toList_append] at hc
    rintro rfl
    rcases List.mem_append.mp hc with hc | hc
    · exact (baseUrl_trim hbase).1 hc
    · simp at hc
  have hquery : queryText (trimEndSlashes base ++ "/run") = [] := by
    rw [queryText, List.dropWhile_eq_nil_iff.mpr fun c hc => decide_eq_true (hpath c hc)]
    rfl
  rw [queryOf, hquery]
  simp [isAiTrack, Kit.FormUrl.pairs, Kit.FormUrl.lookup]

/-! ### The kernel -/

/-- A submission for a challenge that the kernel has. -/
theorem submitRun_eq {s : RegistryState} {nonce : UInt64} {c : Kernel.Challenge}
    (hc : s.challenges.lookup nonce.toNat = some c) (eny now : ℕ) (hardware proverVersion : String)
    (k ms : UInt64) :
    Kernel.submitRun s eny now nonce hardware proverVersion k ms =
      if directMax < k.toNat ∨ directMax < ms.toNat then none
      else some (
        if c.used then (.ok (.error "nonce-used"), s)
        else if now > c.issuedAt + Kernel.h1 then (.ok (.error "stale-nonce"), s)
        else if now < c.issuedAt then (.error .crash, s)
        else if ms.toNat > windowMs c.issuedAt now then (.ok (.error "elapsed-exceeds-window"), s)
        else
          (Kernel.submitAnswer [.runRecorded s.nextId],
            s.record (s.newRun c now nonce.toNat (cord hardware) (cord proverVersion) k.toNat
              ms.toNat))) := by
  by_cases hd : directMax < k.toNat ∨ directMax < ms.toNat
  · rw [if_pos hd, Kernel.submitRun, Option.map_eq_none_iff, Kernel.submitCause, Kernel.D]
    rcases hd with hk | hms
    · rw [if_neg (by omega)]
      rfl
    · split
      · rw [Kernel.D, if_neg (by omega)]
        rfl
      · rfl
  · rw [not_or, Nat.not_lt, Nat.not_lt] at hd
    have hdat : ∃ dat, Kernel.submitCause nonce hardware proverVersion k ms = some dat := by
      rw [Kernel.submitCause, Kernel.D, Kernel.D, if_pos hd.1, if_pos hd.2]
      exact ⟨_, rfl⟩
    obtain ⟨dat, hdat⟩ := hdat
    have hsoft := Kernel.softCause_submitCause hdat
    rw [if_neg (by omega), Kernel.submitRun, hdat, Option.map_some]
    simp only [Kernel.pokeWith, Kernel.poke, hsoft, hc]
    by_cases hu : c.used = true
    · simp only [if_pos hu]
      rfl
    by_cases hstale : now > c.issuedAt + Kernel.h1
    · simp only [if_neg hu, if_pos hstale]
      rfl
    by_cases hback : now < c.issuedAt
    · simp only [if_neg hu, if_neg hstale, if_pos hback]
    by_cases hlong : ms.toNat > windowMs c.issuedAt now
    · simp only [if_neg hu, if_neg hstale, if_neg hback, if_pos hlong]
      rfl
    · simp only [if_neg hu, if_neg hstale, if_neg hback, if_neg hlong]

/-- The nonce was minted at this time. -/
def MintedAt (turns : List (ℕ × Turn)) (n : UInt64) (issuedAt : ℕ) : Prop :=
  ∃ j eny, (j, .mint eny issuedAt) ∈ turns ∧ UInt64.ofNat (Kernel.end6 eny) = n

/-- The challenge is there, from one of its mints, and is used only by a run. -/
def Standing (turns : List (ℕ × Turn)) (k : RegistryState) (n : UInt64) : Prop :=
  ∃ c, k.challenges.lookup n.toNat = some c ∧ MintedAt turns n c.issuedAt ∧
    (c.used = true → ∃ r ∈ k.runs, r.nonce = n.toNat)

/-- What the server keeps of the nonces that it minted. -/
def Server.Keeps (turns : List (ℕ × Turn)) (s : Server) : Prop :=
  ∀ m ∈ s.minted, Standing turns s.kernel m.2

theorem Standing.mono {turns turns' : List (ℕ × Turn)} {k : RegistryState} {n : UInt64}
    (h : Standing turns k n) (hturns : turns ⊆ turns') : Standing turns' k n := by
  obtain ⟨c, hc, ⟨j, eny, hj, hn⟩, hused⟩ := h
  exact ⟨c, hc, ⟨j, eny, hturns hj, hn⟩, hused⟩

theorem end6_toNat (eny : ℕ) : (UInt64.ofNat (Kernel.end6 eny)).toNat = Kernel.end6 eny :=
  UInt64.toNat_ofNat_of_lt' (Nat.mod_lt _ (Nat.two_pow_pos 64))

theorem standing_mint {turns : List (ℕ × Turn)} {k : RegistryState} {j eny now : ℕ}
    (hj : (j, .mint eny now) ∈ turns) {n : UInt64}
    (h : n = UInt64.ofNat (Kernel.end6 eny) ∨ Standing turns k n) :
    Standing turns (k.mint (Kernel.end6 eny) now) n := by
  by_cases hn : n = UInt64.ofNat (Kernel.end6 eny)
  · subst hn
    refine ⟨⟨now, false⟩, ?_, ⟨j, eny, hj, rfl⟩, nofun⟩
    rw [end6_toNat]
    exact Kernel.lookup_mint_self _ _ _
  · obtain ⟨c, hc, hm, hused⟩ := h.resolve_left hn
    refine ⟨c, ?_, hm, hused⟩
    rw [Kernel.lookup_mint_ne, hc]
    intro heq
    apply hn
    rw [← heq, UInt64.ofNat_toNat]

theorem standing_record {turns : List (ℕ × Turn)} {k : RegistryState} {n : UInt64}
    (h : Standing turns k n) {r : Kernel.Run} {c : Kernel.Challenge}
    (hc : k.challenges.lookup r.nonce = some c) (hr : r.issuedAt = c.issuedAt) :
    Standing turns (k.record r) n := by
  obtain ⟨c', hc', hm, hused⟩ := h
  by_cases hn : n.toNat = r.nonce
  · rw [hn, hc] at hc'
    cases hc'
    refine ⟨⟨r.issuedAt, true⟩, ?_, ?_, fun _ => ⟨r, List.mem_cons_self, hn.symm⟩⟩
    · rw [hn]
      exact Kernel.lookup_record_self _ _
    · rw [hr]
      exact hm
  · refine ⟨c', (Kernel.lookup_record_ne k r hn).trans hc', hm, ?_⟩
    intro hu
    obtain ⟨r', hr', hn'⟩ := hused hu
    exact ⟨r', List.mem_cons_of_mem _ hr', hn'⟩

/-- A submission records a run for a challenge that is there, or leaves the kernel as it was. -/
theorem submitRun_state {s s' : RegistryState} {eny now : ℕ} {nonce : UInt64}
    {hardware proverVersion : String} {k ms : UInt64}
    {a : Except Kernel.NockAppError (Except String ℕ)}
    (h : Kernel.submitRun s eny now nonce hardware proverVersion k ms = some (a, s')) :
    s' = s ∨ ∃ r c, s.challenges.lookup r.nonce = some c ∧ r.issuedAt = c.issuedAt ∧
      s' = s.record r := by
  obtain ⟨dat, hdat, hp⟩ := Option.map_eq_some_iff.mp h
  have hs' : s' = Kernel.step s ⟨eny, now, dat⟩ := by
    rw [← pokeWith_state _ _ Kernel.submitAnswer, hp]
  rcases Kernel.step_cases s ⟨eny, now, dat⟩ with heq | ⟨hmint, -⟩ |
    ⟨n, hw, pv, k', ms', c, -, hc, -, -, -, -, heq⟩
  · exact .inl (hs'.trans heq)
  · rw [Kernel.softCause_submitCause hdat] at hmint
    cases hmint
  · exact .inr ⟨_, c, hc, rfl, hs'.trans heq⟩

section Moves

variable {J : SerdeJson} {env : AiEnv} {zk : ZkEnv} {id : ℕ} {s : Server}
  {turns : List (ℕ × Turn)}

/-- What a move does to the nonces that were minted, and to the runs. -/
theorem keeps_step (h : s.Keeps turns) (p : Phase) (t : Turn) :
    (handlerStep J env zk id s p t).1.Keeps (turns ++ [(id, t)]) ∧
      s.kernel.runs ⊆ (handlerStep J env zk id s p t).1.kernel.runs ∧
      s.minted ⊆ (handlerStep J env zk id s p t).1.minted := by
  have hm := handlerMove_step J env zk id s p t
  have hsub : turns ⊆ turns ++ [(id, t)] := List.subset_append_left _ _
  have hkeep : s.Keeps (turns ++ [(id, t)]) := fun m hm => (h m hm).mono hsub
  generalize handlerStep J env zk id s p t = r at hm
  cases hm with
  | mint q statement tier eny now =>
    simp only [Server.mint, Kernel.mintChallenge_eq]
    refine ⟨?_, fun _ h => h, List.subset_cons_self _ _⟩
    have hturn : (id, .mint eny now) ∈ turns ++ [(id, .mint eny now)] :=
      List.mem_append_right _ (List.mem_singleton.mpr rfl)
    intro m hm
    rcases List.mem_cons.mp hm with rfl | hm
    · exact standing_mint hturn (.inl rfl)
    · exact standing_mint hturn (.inr (hkeep m hm))
  | poke nonce sub eny now =>
    simp only [Server.poke]
    split
    · exact ⟨hkeep, fun _ h => h, fun _ h => h⟩
    · rename_i a kernel hpoke
      rcases submitRun_state hpoke with rfl | ⟨r, c, hc, hr, rfl⟩
      · exact ⟨hkeep, fun _ h => h, fun _ h => h⟩
      · refine ⟨fun m hm => standing_record (hkeep m hm) hc hr, ?_, fun _ h => h⟩
        exact List.subset_cons_self _ _
  | record q statement tier nonce nowMs a =>
    cases a <;> exact ⟨hkeep, fun _ h => h, fun _ h => h⟩
  | commit req target accepted nowMs a ioError =>
    simp only [Server.commit]
    split <;> exact ⟨hkeep, fun _ h => h, fun _ h => h⟩
  | _ => exact ⟨hkeep, fun _ h => h, fun _ h => h⟩

end Moves

/-! ### The handler of the submission -/

/-- The run is the submission's, for the challenge. -/
structure RunOf (n k : UInt64) (sub : RunSubmission) (r : Kernel.Run) : Prop where
  nonce : r.nonce = n.toNat
  hardware : r.hardware = cord sub.hardware
  proverVersion : r.proverVersion = cord sub.proverVersion
  k : r.k = k.toNat
  elapsed : r.elapsedMs = sub.elapsedMs.toNat

/-- The poke of the handler reads the time `now`; the nonce was minted at `issued`. -/
def PokedAt (turns after : List (ℕ × Turn)) (id : ℕ) (n : UInt64) (issued now : ℕ) : Prop :=
  MintedAt turns n issued ∧ ∃ eny, (id, .poke eny now) ∈ after

/-- The answers to a submission that passed the checks. -/
inductive PokeSettled (runs : List Kernel.Run) (turns after : List (ℕ × Turn)) (id : ℕ)
    (n k : UInt64) (sub : RunSubmission) : Reply → Prop where
  | recorded {r : Kernel.Run} (hr : r ∈ runs) (hof : RunOf n k sub r) (hid : r.id < 2 ^ 64) :
      PokeSettled runs turns after id n k sub (.ok (.obj (.ofList [("run_id", .num r.id)])))
  | used (h : ∃ r ∈ runs, r.nonce = n.toNat) :
      PokeSettled runs turns after id n k sub (bad "nonce-used")
  | stale {issued now : ℕ} (ht : PokedAt turns after id n issued now)
      (h : issued + Kernel.h1 < now) : PokeSettled runs turns after id n k sub (bad "stale-nonce")
  | elapsed {issued now : ℕ} (ht : PokedAt turns after id n issued now)
      (h : windowMs issued now < sub.elapsedMs.toNat) :
      PokeSettled runs turns after id n k sub (bad "elapsed-exceeds-window")
  | clock {issued now : ℕ} {reply : Reply} (ht : PokedAt turns after id n issued now)
      (h : now < issued) (hreply : reply.status = 500) :
      PokeSettled runs turns after id n k sub reply
  | counter {r : Kernel.Run} {reply : Reply} (hr : r ∈ runs) (hid : 2 ^ 64 ≤ r.id)
      (hreply : reply.status = 500) : PokeSettled runs turns after id n k sub reply

/-- The submission waits for its poke, or is settled. A number that no noun carries panics. -/
def Phase.Poked (s : Server) (turns after : List (ℕ × Turn)) (id : ℕ) (n : UInt64)
    (sub : RunSubmission) : Phase → Prop
  | .poking n' sub' => n' = n ∧ sub' = sub
  | .answered reply => PokeSettled s.kernel.runs turns after id n s.config.k sub reply
  | .gone => (id, .hangUp) ∈ after ∨ directMax < s.config.k.toNat ∨
      directMax < sub.elapsedMs.toNat
  | _ => False

section Poked

variable {J : SerdeJson} {env : AiEnv} {zk : ZkEnv} {id : ℕ} {s s' : Server}
  {turns turns' after after' : List (ℕ × Turn)} {n : UInt64} {sub : RunSubmission}

theorem PokedAt.mono {issued now : ℕ} (h : PokedAt turns after id n issued now)
    (hturns : turns ⊆ turns') (hafter : after ⊆ after') :
    PokedAt turns' after' id n issued now := by
  obtain ⟨⟨j, eny, hj, hn⟩, eny', ht⟩ := h
  exact ⟨⟨j, eny, hturns hj, hn⟩, eny', hafter ht⟩

theorem Phase.Poked.mono {p : Phase} (h : p.Poked s turns after id n sub)
    (hcfg : s'.config = s.config) (hruns : s.kernel.runs ⊆ s'.kernel.runs)
    (hturns : turns ⊆ turns') (hafter : after ⊆ after') : p.Poked s' turns' after' id n sub := by
  cases p with
  | poking => exact h
  | gone =>
    show _ ∨ directMax < s'.config.k.toNat ∨ _
    rw [hcfg]
    exact h.imp_left fun hmem => hafter hmem
  | answered reply =>
    show PokeSettled s'.kernel.runs turns' after' id n s'.config.k sub reply
    rw [hcfg]
    cases h with
    | recorded hr hof hid => exact .recorded (hruns hr) hof hid
    | used hused =>
      obtain ⟨r, hr, hn⟩ := hused
      exact .used ⟨r, hruns hr, hn⟩
    | stale ht hlate => exact .stale (ht.mono hturns hafter) hlate
    | elapsed ht hlong => exact .elapsed (ht.mono hturns hafter) hlong
    | clock ht hback hreply => exact .clock (ht.mono hturns hafter) hback hreply
    | counter hr hid hreply => exact .counter (hruns hr) hid hreply
  | _ => exact h

/-- The poke settles it. -/
theorem poked_poke (hs : Standing turns s.kernel n) {eny now : ℕ}
    (ht : (id, .poke eny now) ∈ after) :
    (s.poke zk n sub eny now).2.Poked (s.poke zk n sub eny now).1 turns after id n sub := by
  obtain ⟨c, hc, hm, hused⟩ := hs
  have hat : PokedAt turns after id n c.issuedAt now := ⟨hm, eny, ht⟩
  simp only [Server.poke, submitRun_eq hc]
  by_cases hd : directMax < s.config.k.toNat ∨ directMax < sub.elapsedMs.toNat
  · simp only [if_pos hd]
    exact .inr hd
  simp only [if_neg hd]
  by_cases hu : c.used = true
  · simp only [if_pos hu]
    exact .used (hused hu)
  simp only [if_neg hu]
  by_cases hstale : now > c.issuedAt + Kernel.h1
  · simp only [if_pos hstale]
    exact .stale hat hstale
  simp only [if_neg hstale]
  by_cases hback : now < c.issuedAt
  · simp only [if_pos hback]
    exact .clock hat hback rfl
  simp only [if_neg hback]
  by_cases hlong : sub.elapsedMs.toNat > windowMs c.issuedAt now
  · simp only [if_pos hlong]
    exact .elapsed hat hlong
  simp only [if_neg hlong, Kernel.submitAnswer]
  by_cases hid : s.kernel.nextId < 2 ^ 64
  · simp only [if_pos hid]
    exact .recorded List.mem_cons_self ⟨rfl, rfl, rfl, rfl, rfl⟩ hid
  · simp only [if_neg hid]
    exact .counter List.mem_cons_self (Nat.not_lt.mp hid) rfl

/-- A turn of the handler. -/
theorem poked_step (hs : Standing turns s.kernel n) {p : Phase}
    (hp : p.Poked s turns after id n sub) (t : Turn) :
    (handlerStep J env zk id s p t).2.Poked (handlerStep J env zk id s p t).1
      (turns ++ [(id, t)]) (after ++ [(id, t)]) id n sub := by
  have hm := handlerMove_step J env zk id s p t
  have hturns : turns ⊆ turns ++ [(id, t)] := List.subset_append_left _ _
  have hafter : after ⊆ after ++ [(id, t)] := List.subset_append_left _ _
  have hturn : (id, t) ∈ after ++ [(id, t)] :=
    List.mem_append_right _ (List.mem_singleton.mpr rfl)
  generalize handlerStep J env zk id s p t = r at hm
  cases hm with
  | stay => exact hp.mono rfl (fun _ h => h) hturns hafter
  | hangUp => exact .inl hturn
  | poke n' sub' eny now =>
    obtain ⟨rfl, rfl⟩ := hp
    exact poked_poke (hs.mono hturns) hturn
  | _ => cases hp

end Poked

/-- From the submission on, whoever moves. -/
theorem poked_served {J : SerdeJson} {env : AiEnv} {zk : ZkEnv} {kernel : RegistryState}
    {config : Config} {before after : List (ℕ × Turn)} {id : ℕ} {q : Query} {body : Body}
    (hidle : (served J env zk kernel config before).thread id = .idle) {n : UInt64}
    {sub : RunSubmission} (hsubmit : submit env zk config q body = .poking n sub)
    (hminted : ∃ j, (j, n) ∈ (served J env zk kernel config before).shared.minted) :
    let schedule := before ++ (id, .submit q body) :: after
    let w := served J env zk kernel config schedule
    w.shared.Keeps schedule ∧ (∃ j, (j, n) ∈ w.shared.minted) ∧
      (w.thread id).Poked w.shared schedule after id n sub := by
  have hkeeps : ∀ schedule, (served J env zk kernel config schedule).shared.Keeps schedule := by
    intro schedule
    induction schedule using List.reverseRecOn with
    | nil => exact nofun
    | append_singleton schedule i ih =>
      rw [served_step]
      exact (keeps_step ih _ i.2).1
  obtain ⟨j, hj⟩ := hminted
  induction after using List.reverseRecOn with
  | nil =>
    refine ⟨hkeeps _, ⟨j, ?_⟩, ?_⟩
    · rw [served_step]
      exact (keeps_step (hkeeps before) _ _).2.2 hj
    · rw [served_step, Kit.Program.move_thread_self, hidle]
      show (submit env zk _ q body).Poked _ _ _ _ _ _
      rw [config_served, hsubmit]
      exact ⟨rfl, rfl⟩
  | append_singleton after i ih =>
    obtain ⟨-, ⟨j', hj'⟩, hp⟩ := ih
    refine ⟨hkeeps _, ?_⟩
    rw [show before ++ (id, .submit q body) :: (after ++ [i]) =
      (before ++ (id, .submit q body) :: after) ++ [i] by simp, served_step]
    have hstep := @keeps_step J env zk i.1 _ _ (hkeeps (before ++ (id, .submit q body) :: after))
      ((served J env zk kernel config (before ++ (id, .submit q body) :: after)).thread i.1) i.2
    refine ⟨⟨j', hstep.2.2 hj'⟩, ?_⟩
    by_cases hi : id = i.1
    · subst hi
      rw [Kit.Program.move_thread_self]
      exact poked_step (hkeeps _ _ hj') hp i.2
    · rw [Kit.Program.move_thread_ne _ hi]
      exact hp.mono (moved_step J env zk i.1 _ _ i.2).config hstep.2.1
        (List.subset_append_left _ _) (List.subset_append_left _ _)

/-! ### The client -/

/-- What the client reads of the reply to its request. -/
theorem fetchChallenge_reply {J : SerdeJson} {json : ClientJson} (hread : Reads json J)
    (statusText : ℕ → String) (base : String) (config : Config) (n : UInt64) :
    fetchChallenge json (fun _ => .ok (responseOf J statusText (zkChallengeReply config n))) base =
      .ok ⟨u64String n, config.k, defaultPowLen, Tock.nonceRule⟩ := by
  have hcanonical : (zkChallengeReply config n).body.Canonical := by
    apply Kit.Json.Value.canonical_ofList
    simp [Value.Canonical, u64]
  have hok : (responseOf J statusText (zkChallengeReply config n)).isSuccess = true := rfl
  have hparse : (responseOf J statusText (zkChallengeReply config n)).text.bind json.parse =
      .ok (zkChallengeReply config n).body := hread _ hcanonical
  simp only [fetchChallenge, hok, hparse, fromValue_reply]
  rfl

/-- A client fetches a challenge, proves it on as many threads as it has and submits the proofs;
what it sends gets to a handler. However the server's other handlers interleave and whatever fails:
the handler does not end but by an answer, when the client hangs up, or on a number that the kernel
cannot be poked with. The answer is the id of a run in the kernel of just this submission; or the
nonce was used, by a run in the kernel; or the poke came more than an hour after a mint of the
nonce, or before it, or sooner than the client claims; or the kernel has counted too far. -/
theorem honest_zk_run {c : Client} {zk : ZkEnv} (hcarries : CarriesPuzzle c zk.decode)
    (hbase64 : ∀ jam, zk.base64 (c.base64 jam) = some jam) {n : UInt64}
    (hverify : ∀ j jam, ProvedAt c n j jam → zk.verify j jam = .valid)
    (lossy : List UInt8 → String) {base : String} (hbase : BaseUrl base)
    {J : SerdeJson} {json : ClientJson} (hread : Reads json J) (statusText : ℕ → String)
    {env : AiEnv} {kernel : RegistryState} {config : Config} {before after : List (ℕ × Turn)}
    {id : ℕ} (hidle : (served J env zk kernel config before).thread id = .idle)
    (hminted : ∃ j, (j, n) ∈ (served J env zk kernel config before).shared.minted)
    {ch : Tock.Challenge}
    (hfetch : fetchChallenge json
      (fun _ => .ok (responseOf J statusText (zkChallengeReply config n))) base = .ok ch)
    {threads : UInt64} {order : List ℕ} (horder : order.Perm (List.range threads.toNat))
    {hw : Tock.Hardware} {hardware proverVersion : String}
    (hhardware : hardwareSummary hw = some hardware)
    (hversion : proverVersion.utf8ByteSize ≤ 64) {totalS : ℚ} {sub : Tock.Submission}
    (hsub : benchSubmit c threads order ch hardware proverVersion (elapsedMs totalS) = some sub)
    (asAiRun : Except String AiRunSubmission) (shape : Value → String) :
    let url := trimEndSlashes base ++ "/run"
    let schedule :=
      before ++ (id, .submit (queryOf lossy url) ⟨runBodyOf shape sub.value, asAiRun⟩) :: after
    let w := served J env zk kernel config schedule
    let told := fun reply =>
      Tock.submitRun json (fun _ _ => .ok (responseOf J statusText reply)) base sub
    (w.thread id = .gone → (id, .hangUp) ∈ after ∨ directMax < config.k.toNat ∨
      directMax < sub.elapsedMs.toNat) ∧
    ∀ reply, w.thread id = .answered reply →
      (∃ r ∈ w.shared.kernel.runs, RunOf n config.k (received sub) r ∧
        told reply = .ok (UInt64.ofNat r.id)) ∨
      (told reply = .error "nonce-used" ∧ ∃ r ∈ w.shared.kernel.runs, r.nonce = n.toNat) ∨
      (told reply = .error "stale-nonce" ∧ ∃ issued now,
        PokedAt schedule after id n issued now ∧ issued + Kernel.h1 < now) ∨
      (told reply = .error "elapsed-exceeds-window" ∧ ∃ issued now,
        PokedAt schedule after id n issued now ∧ windowMs issued now < sub.elapsedMs.toNat) ∨
      reply.status = 500 ∧ ((∃ issued now, PokedAt schedule after id n issued now ∧ now < issued) ∨
        ∃ r ∈ w.shared.kernel.runs, 2 ^ 64 ≤ r.id) := by
  intro url schedule w told
  rw [fetchChallenge_reply hread] at hfetch
  have hch : Tock.Challenge.fromValue (zkChallengeReply config n).body = some ch :=
    (fromValue_reply config n).trans (congrArg some (Except.ok.inj hfetch))
  obtain ⟨perProof, -, hhonest⟩ := benchSubmit_honest hch horder hsub
  have hfields : sub.hardware = hardware ∧ sub.proverVersion = proverVersion ∧
      sub.elapsedMs = elapsedMs totalS := by
    unfold benchSubmit at hsub
    split at hsub
    · cases hsub
    obtain ⟨_, -, rfl⟩ := Option.map_eq_some_iff.mp hsub
    exact ⟨rfl, rfl, rfl⟩
  obtain ⟨rfl, rfl, hms⟩ := hfields
  obtain ⟨s, hs, hlong⟩ := Tock.capBytes_longest 128 (Tock.hostText hw)
  cases hs.symm.trans hhardware
  have hvalid : validate zk config.k (.ok (received sub)) = .ok (n, received sub) :=
    honest_run_validates hhonest hcarries hbase64 hverify (hms ▸ elapsedMs_ne_zero totalS)
      hlong.fits hversion
  have hsubmit : submit env zk config (queryOf lossy url) ⟨runBodyOf shape sub.value, asAiRun⟩ =
      .poking n (received sub) := by
    have htrack : isAiTrack (queryOf lossy url) = false := query_runUrl hbase
    simp only [submit, htrack, Bool.false_eq_true, if_false, runBodyOf, fromValue_run, hvalid]
  obtain ⟨-, -, hpoked⟩ := @poked_served J env zk kernel config before after id _ _ hidle _ _
    hsubmit hminted
  constructor
  · intro hgone
    rw [hgone] at hpoked
    have hcfg : w.shared.config = config := config_served _
    rw [← hcfg]
    exact hpoked
  · intro reply hans
    rw [hans] at hpoked
    cases hpoked with
    | recorded hr hof hid =>
      refine .inl ⟨_, hr, ?_, runIdOf_ok hread url statusText hid⟩
      have hcfg : w.shared.config = config := config_served _
      rw [← hcfg]
      exact hof
    | used h => exact .inr (.inl ⟨runIdOf_bad hread url statusText _, h⟩)
    | stale ht h => exact .inr (.inr (.inl ⟨runIdOf_bad hread url statusText _, _, _, ht, h⟩))
    | elapsed ht h =>
      exact .inr (.inr (.inr (.inl ⟨runIdOf_bad hread url statusText _, _, _, ht, h⟩)))
    | clock ht h hreply => exact .inr (.inr (.inr (.inr ⟨hreply, .inl ⟨_, _, ht, h⟩⟩)))
    | counter hr hid hreply => exact .inr (.inr (.inr (.inr ⟨hreply, .inr ⟨_, hr, hid⟩⟩)))

/-! ### Three proofs on two threads -/

def zkSeven : Tock.Submission :=
  ⟨"7", "unknown CPU / Linux / x86_64", "0.1.0", 1, ["\x00", "\x01", "\x02"]⟩

/-- The task that ends first has the proof in the middle. -/
theorem benchSubmit_seven : benchSubmit sevenProver 2 [1, 0] ⟨"7", 3, 64, Tock.nonceRule⟩
    "unknown CPU / Linux / x86_64" "0.1.0" 1 = some zkSeven := by
  have hjoin : Tock.join sevenProver (Tock.proveTask sevenProver "7" 3 64 2) [1, 0] [] =
      some [⟨1, 900, [1]⟩, ⟨0, 900, [0]⟩, ⟨2, 900, [2]⟩] := rfl
  have hbench : Tock.bench sevenProver 2 [1, 0] "7" 3 64 =
      some [⟨0, 900, [0]⟩, ⟨1, 900, [1]⟩, ⟨2, 900, [2]⟩] := by
    rw [Tock.bench, if_neg (by decide), if_neg (by decide), hjoin, Option.map_some,
      Kit.Stripes.sortByIndex_eq (.swap _ _ _) (by simp)]
  rw [benchSubmit, if_neg (by simp), hbench]
  rfl

/-- Handler 0 mints challenge 7, and handler 1 pokes a second later. -/
def worldZkSeven : Kit.Threads Server Phase :=
  let url := trimEndSlashes "https://registry.example/" ++ "/run"
  served .compact strict sevenZk Kernel.init (zkConfig 3)
    ([(0, .newChallenge fun _ => none), (0, .mint 7 0)] ++
      (1, .submit (queryOf lossyUtf8 url) ⟨runBodyOf (fun _ => "") zkSeven.value, .error ""⟩) ::
        [(1, .poke 8 Kernel.s1)])

theorem honest_zk_run_seven : ∃ r ∈ worldZkSeven.shared.kernel.runs,
    RunOf 7 3 (received zkSeven) r := by
  have hbase : BaseUrl "https://registry.example/" := by
    constructor <;> simp
  have hms : elapsedMs (0 : ℚ) = 1 := by decide +kernel
  have hfetch : fetchChallenge compactJson (fun _ => .ok (responseOf .compact
      (fun _ => "200 OK") (zkChallengeReply (zkConfig 3) 7))) "https://registry.example/" =
      .ok ⟨"7", 3, 64, Tock.nonceRule⟩ := by
    rw [fetchChallenge_reply compactJson_reads]
    rfl
  have hsub : benchSubmit sevenProver 2 [1, 0] ⟨"7", 3, 64, Tock.nonceRule⟩
      "unknown CPU / Linux / x86_64" "0.1.0" (elapsedMs (0 : ℚ)) = some zkSeven := by
    rw [hms]
    exact benchSubmit_seven
  have hans : worldZkSeven.thread 1 = .answered (.ok (.obj (.ofList [("run_id", .num 0)]))) := rfl
  have hok : Tock.submitRun compactJson
      (fun _ _ => .ok (responseOf .compact (fun _ => "200 OK")
        (.ok (.obj (.ofList [("run_id", .num 0)]))))) "https://registry.example/" zkSeven =
      .ok 0 := by
    rw [Tock.submitRun, runIdOf_ok compactJson_reads _ _ (by decide)]
    rfl
  obtain ⟨r, hr, hof, -⟩ | ⟨htold, -⟩ | ⟨htold, -⟩ | ⟨htold, -⟩ | ⟨h500, -⟩ :=
    (@honest_zk_run sevenProver sevenZk carriesPuzzle_seven base64_seven 7 (fun _ _ _ => rfl)
      lossyUtf8 _ hbase .compact compactJson compactJson_reads (fun _ => "200 OK") strict
      Kernel.init (zkConfig 3) [(0, .newChallenge fun _ => none), (0, .mint 7 0)]
      [(1, .poke 8 Kernel.s1)] 1 rfl ⟨0, List.mem_singleton.mpr rfl⟩ _ hfetch 2 [1, 0] (by decide)
      ⟨none, none, none, "Linux", "x86_64"⟩ _ _ rfl (by decide) 0 zkSeven hsub (.error "")
      (fun _ => "")).2 _ hans
  · exact ⟨r, hr, hof⟩
  · cases hok.symm.trans htold
  · cases hok.symm.trans htold
  · cases hok.symm.trans htold
  · cases h500

end Registry
end Nockmark
