import Nockmark.Tock.AipowGpu
import Nockmark.Tock.Hardware

/-!
# Tock.Grind

The workload of `tock ai-bench`, from a challenge to its certificates: the dense grind loop, the
provers of both statements and the three `run`s (`tock/src/aipow.rs`, `aipow_moe.rs`,
`aipow_gpu.rs`).

The crates that evaluate and prove an attempt are parameters; a block context is part of what they
do. As for the ordinals, a panic is an abort, the loop takes fuel, and the wall-clock figures are
left out.

* `grindLoop_eq`: the loop searches what is before the first extranonce that it cannot get over. The
  last extranonce is one: it is evaluated, but `checked_add` overflows behind it.
* `proveWins_certified`: every win gets the certificate of its own attempt, in order.
* `run_exact`: what `run` returns, for every prover.
-/

namespace Nockmark
namespace Tock

open Kit.Search

/-- The blob of one dense win. -/
structure AiCertBlob (Pis : Type) where
  nonce : List UInt8
  foundIdx : UInt32
  traceHeight : ℕ
  pis : Pis
  certBytes : List UInt8

/-- A proved attempt, with what encoding its certificate yields. -/
structure ProveRun (Pis Cache : Type) where
  certificate : Except String (List UInt8)
  traceHeight : ℕ
  publicInputs : Pis
  proverCache : Option Cache

/-- The crates of the dense statement, on a host whose vectors hold `capacity` numbers. -/
structure AiPow where
  Pis : Type
  Cache : Type
  capacity : ℕ
  /-- `mine_with_context_at_target`: is there a win? -/
  attempt : Bytes32 → List UInt8 → Bytes32 → Except String Bool
  prove : Option Cache → Bytes32 → List UInt8 → Bytes32 → UInt32 →
    Except String (ProveRun Pis Cache)
  encodeBlob : AiCertBlob Pis → Except String (List UInt8)

/-- An attempt wins if its jackpot clears the target. -/
structure AiPow.Lawful (p : AiPow) (jackpot : Bytes32 → List UInt8 → Bytes32) : Prop where
  attempt : ∀ challenge nonce target,
    p.attempt challenge nonce target = .ok (hashLeTarget (jackpot challenge nonce) target)

structure AiChallenge where
  challenge : Bytes32
  target : Bytes32
  k : UInt64

structure AiWin where
  extranonce : UInt64
  certBytes : List UInt8
  submissionBytes : List UInt8

structure GrindResult where
  winExtranonces : List UInt64
  totalAttempts : UInt64

structure AiBenchSummary where
  wins : List AiWin
  totalAttempts : UInt64

inductive BenchAbort where
  | kZero
  | capacity
  | attempt (e : String)
  | exhausted
  | moe (a : Abort)
  | prove (e : String)
  /-- of `ai_bench`, before or after the run -/
  | workload (e : String)
  | slice
  deriving DecidableEq

/-- The number of extranonces. -/
def extranonceSpace : ℕ := 2 ^ 64

/-! ### The dense statement -/

def grindLoop (p : AiPow) (ch : AiChallenge) :
    ℕ → List UInt64 → UInt64 → Option (Except BenchAbort GrindResult)
  | 0, _, _ => none
  | fuel + 1, winExtranonces, extranonce =>
    if winExtranonces.length < ch.k.toNat then
      match p.attempt ch.challenge (extranonceNonce extranonce) ch.target with
      | .error e => some (.error (.attempt e))
      | .ok won =>
        let winExtranonces := if won then winExtranonces ++ [extranonce] else winExtranonces
        if extranonce.toNat + 1 < extranonceSpace then
          grindLoop p ch fuel winExtranonces (extranonce + 1)
        else some (.error .exhausted)
    else some (.ok ⟨winExtranonces, extranonce⟩)

/-- A vector for all the wins is allocated before the first attempt. -/
def grind (p : AiPow) (fuel : ℕ) (ch : AiChallenge) : Option (Except BenchAbort GrindResult) :=
  if ch.k = 0 then some (.error .kZero)
  else if p.capacity < ch.k.toNat then some (.error .capacity)
  else grindLoop p ch fuel [] 0

/-- One win after another, with what each leaves for the next. -/
def proveEach {σ α β : Type} (prove : σ → α → Except BenchAbort (β × σ)) :
    σ → List α → Except BenchAbort (List β)
  | _, [] => .ok []
  | s, attempt :: rest =>
    match prove s attempt with
    | .error a => .error a
    | .ok (win, s) => (proveEach prove s rest).map (win :: ·)

/-- The first run that leaves a prover cache sets it for those after it. -/
def proveWin (p : AiPow) (ch : AiChallenge) (cache : Option p.Cache) (extranonce : UInt64) :
    Except BenchAbort (AiWin × Option p.Cache) :=
  let nonce := extranonceNonce extranonce
  let foundIdx := 0
  match p.prove cache ch.challenge nonce ch.target foundIdx with
  | .error e => .error (.prove e)
  | .ok run =>
    match run.certificate with
    | .error e => .error (.prove e)
    | .ok certBytes =>
      match p.encodeBlob ⟨nonce, foundIdx, run.traceHeight, run.publicInputs, certBytes⟩ with
      | .error e => .error (.prove e)
      | .ok submissionBytes =>
        .ok (⟨extranonce, certBytes, submissionBytes⟩, cache.or run.proverCache)

def proveWins (p : AiPow) (ch : AiChallenge) (winExtranonces : List UInt64) :
    Except BenchAbort (List AiWin) :=
  proveEach (proveWin p ch) none winExtranonces

def run (p : AiPow) (fuel : ℕ) (ch : AiChallenge) : Option (Except BenchAbort AiBenchSummary) :=
  match grind p fuel ch with
  | none => none
  | some (.error a) => some (.error a)
  | some (.ok grind) =>
    some ((proveWins p ch grind.winExtranonces).map fun wins => ⟨wins, grind.totalAttempts⟩)

/-! ### The canonical MoE statement -/

structure AiMoeCertBlob (Pis : Type) where
  ordinal : UInt32
  pis : Pis
  certBytes : List UInt8

/-- A proved block; its certificate is a node of bytes, or of another kind. -/
structure MoeBlock (Pis : Type) where
  publicInputs : Pis
  certificate : Option (List UInt8)

structure MoeProver where
  Pis : Type
  proveCanonicalMoeBlockAt : Bytes32 → UInt32 → Except String (MoeBlock Pis)
  encodeBlob : AiMoeCertBlob Pis → Except String (List UInt8)

structure AiMoeWin where
  ordinal : UInt32
  certBytes : List UInt8
  submissionBytes : List UInt8

structure AiMoeBenchSummary where
  wins : List AiMoeWin
  totalAttempts : ℕ

def proveMoeWin (p : MoeProver) (ch : AiMoeChallenge) (ordinal : UInt32) :
    Except BenchAbort AiMoeWin :=
  match p.proveCanonicalMoeBlockAt ch.challenge ordinal with
  | .error e => .error (.prove e)
  | .ok block =>
    match block.certificate with
    | none => .error (.prove "production compact certificate must use the canonical byte node")
    | some certBytes =>
      match p.encodeBlob ⟨ordinal, block.publicInputs, certBytes⟩ with
      | .error e => .error (.prove e)
      | .ok submissionBytes => .ok ⟨ordinal, certBytes, submissionBytes⟩

/-- Every win pays the full setup. -/
def proveMoeWins (p : MoeProver) (ch : AiMoeChallenge) (winOrdinals : List UInt32) :
    Except BenchAbort (List AiMoeWin) :=
  proveEach (fun _ ordinal => (proveMoeWin p ch ordinal).map (·, ())) () winOrdinals

/-- Where the ordinals are ground; a GPU is given `batchAttempts` at a time. -/
def grindOn (u : Canonical) (g : Gpu) (fuel : ℕ) (ch : AiMoeChallenge) (batchAttempts : ℕ) :
    Backend → Option (Except Abort MoeGrindResult)
  | .cpu => grindMoe u fuel ch
  | .gpu _ => grindMoeGpu u g fuel ch batchAttempts

/-- `run` of either module; the certificates are proved on the CPU. -/
def runMoe (u : Canonical) (g : Gpu) (p : MoeProver) (fuel : ℕ) (ch : AiMoeChallenge)
    (batchAttempts : ℕ) (backend : Backend) : Option (Except BenchAbort AiMoeBenchSummary) :=
  match grindOn u g fuel ch batchAttempts backend with
  | none => none
  | some (.error a) => some (.error (.moe a))
  | some (.ok grind) =>
    some ((proveMoeWins p ch grind.winOrdinals).map fun wins => ⟨wins, grind.totalAttempts⟩)

/-! ### The dense loop -/

/-- Does the extranonce `n` win? -/
def denseWins (jackpot : List UInt8 → Bytes32) (target : Bytes32) (n : ℕ) : Bool :=
  hashLeTarget (jackpot (extranonceNonce (UInt64.ofNat n))) target

/-- The attempt at the extranonce `n`. -/
def AiPow.attemptAt (p : AiPow) (ch : AiChallenge) (n : ℕ) : Except String Bool :=
  p.attempt ch.challenge (extranonceNonce (UInt64.ofNat n)) ch.target

def AiPow.wins (p : AiPow) (ch : AiChallenge) (n : ℕ) : Bool :=
  (p.attemptAt ch n).toOption.getD false

/-- What ends the loop at the extranonce `n`, whether it wins or not: an attempt that cannot be
evaluated, or that there is no next extranonce. -/
def AiPow.abortAt (p : AiPow) (ch : AiChallenge) (n : ℕ) : Option BenchAbort :=
  match p.attemptAt ch n with
  | .error e => some (.attempt e)
  | .ok _ => if n + 1 < extranonceSpace then none else some .exhausted

/-- A loop that is not done before `limit` ends there. -/
structure AiPow.StopsAt (p : AiPow) (ch : AiChallenge) (limit : ℕ) (a : BenchAbort) : Prop where
  goesOn : ∀ n < limit, p.abortAt ch n = none
  stops : p.abortAt ch limit = some a

/-- What a loop that has found `found` returns, when the rest of its search yields `r`. -/
def denseResult (a : BenchAbort) (found : List UInt64) :
    Option (List ℕ × ℕ) → Except BenchAbort GrindResult
  | some (ws, total) => .ok ⟨found ++ ws.map UInt64.ofNat, UInt64.ofNat total⟩
  | none => .error a

theorem denseResult_cons (a : BenchAbort) (found : List UInt64) (w : ℕ)
    (r : Option (List ℕ × ℕ)) : denseResult a found (r.map fun r => (w :: r.1, r.2)) =
      denseResult a (found ++ [UInt64.ofNat w]) r := by
  cases r with
  | none => rfl
  | some r => simp [denseResult]

section Dense

variable {p : AiPow} {jackpot : Bytes32 → List UInt8 → Bytes32} {ch : AiChallenge} {limit : ℕ}
  {a : BenchAbort}

theorem abortAt_eq_none {n : ℕ} :
    p.abortAt ch n = none ↔ p.attemptAt ch n = .ok (p.wins ch n) ∧ n + 1 < extranonceSpace := by
  unfold AiPow.abortAt AiPow.wins
  cases p.attemptAt ch n with
  | error e => simp
  | ok won => simp [Except.toOption]

/-- The last extranonce is a limit for every loop. -/
theorem abortAt_last : (p.abortAt ch (extranonceSpace - 1)).isSome = true := by
  unfold AiPow.abortAt
  cases p.attemptAt ch (extranonceSpace - 1) with
  | error e => rfl
  | ok won =>
    simp only
    rw [if_neg (by decide)]
    rfl

theorem exists_stopsAt (p : AiPow) (ch : AiChallenge) : ∃ limit a, p.StopsAt ch limit a := by
  have hex : ∃ n, (p.abortAt ch n).isSome = true := ⟨_, abortAt_last⟩
  obtain ⟨a, ha⟩ := Option.isSome_iff_exists.mp (Nat.find_spec hex)
  refine ⟨Nat.find hex, a, ?_, ha⟩
  intro n hn
  exact Option.not_isSome_iff_eq_none.mp (Nat.find_min hex hn)

theorem AiPow.StopsAt.lt (h : p.StopsAt ch limit a) : limit < extranonceSpace := by
  by_contra hle
  have hlast := @abortAt_last p ch
  rw [h.goesOn (extranonceSpace - 1) (by unfold extranonceSpace at hle ⊢; omega)] at hlast
  cases hlast

theorem AiPow.Lawful.wins_eq (hp : p.Lawful jackpot) :
    p.wins ch = denseWins (jackpot ch.challenge) ch.target := by
  funext n
  rw [AiPow.wins, AiPow.attemptAt, hp.attempt]
  rfl

theorem AiPow.Lawful.stopsAt (hp : p.Lawful jackpot) :
    p.StopsAt ch (extranonceSpace - 1) .exhausted := by
  constructor
  · intro n hn
    rw [abortAt_eq_none, hp.wins_eq, AiPow.attemptAt, hp.attempt]
    exact ⟨rfl, by omega⟩
  · rw [AiPow.abortAt, AiPow.attemptAt, hp.attempt]
    exact if_neg (by decide)

theorem grindLoop_done {fuel : ℕ} (hf : 0 < fuel) {found : List UInt64}
    (hl : found.length = ch.k.toNat) (extranonce : UInt64) :
    grindLoop p ch fuel found extranonce = some (.ok ⟨found, extranonce⟩) := by
  obtain ⟨f, rfl⟩ := Nat.exists_eq_add_of_lt hf
  rw [Nat.zero_add, grindLoop, if_neg (by omega)]

/-- The loop, from any extranonce up to the limit: it searches what is before the limit. -/
theorem grindLoop_eq (h : p.StopsAt ch limit a) {fuel : ℕ} {found : List UInt64}
    {extranonce : UInt64} (hle : extranonce.toNat ≤ limit) (hfuel : limit - extranonce.toNat < fuel)
    (hl : found.length < ch.k.toNat) :
    grindLoop p ch fuel found extranonce =
      some (denseResult a found (search (p.wins ch) (ch.k.toNat - found.length)
        extranonce.toNat limit)) := by
  have hat : p.attempt ch.challenge (extranonceNonce extranonce) ch.target =
      p.attemptAt ch extranonce.toNat := by
    rw [AiPow.attemptAt, UInt64.ofNat_toNat]
  induction fuel generalizing found extranonce with
  | zero => omega
  | succ fuel ih =>
    rw [grindLoop, if_pos hl, hat]
    rcases Nat.lt_or_eq_of_le hle with hlt | heq
    · obtain ⟨hok, hnext⟩ := abortAt_eq_none.mp (h.goesOn _ hlt)
      have hsucc : (extranonce + 1).toNat = extranonce.toNat + 1 := by
        rw [UInt64.toNat_add]
        exact Nat.mod_eq_of_lt hnext
      have hrec {found' : List UInt64} (hl' : found'.length < ch.k.toNat) :=
        @ih found' (extranonce + 1) (by omega) (by omega) hl'
          (by rw [AiPow.attemptAt, UInt64.ofNat_toNat])
      rw [hsucc] at hrec
      obtain ⟨k, hk⟩ := Nat.exists_eq_add_of_lt hl
      rw [hok, show ch.k.toNat - found.length = k + 1 by omega, search_step hlt]
      simp only [if_pos hnext]
      cases hwin : p.wins ch extranonce.toNat with
      | false =>
        have hskip := hrec hl
        rw [show ch.k.toNat - found.length = k + 1 by omega] at hskip
        exact hskip
      | true =>
        simp only [if_true]
        have hlen : (found ++ [extranonce]).length = found.length + 1 := by simp
        by_cases hk0 : k = 0
        · -- the last win wanted: the loop test ends it behind the increment
          rw [if_pos hk0, grindLoop_done (by omega) (by omega)]
          have hofnat : UInt64.ofNat (extranonce.toNat + 1) = extranonce + 1 := by
            rw [← hsucc, UInt64.ofNat_toNat]
          rw [denseResult, List.map_singleton, UInt64.ofNat_toNat, hofnat]
        · have htake := @hrec (found ++ [extranonce]) (by omega)
          rw [hlen, show ch.k.toNat - (found.length + 1) = k by omega] at htake
          rw [if_neg hk0, denseResult_cons, UInt64.ofNat_toNat]
          exact htake
    · -- the limit, whether it wins or not
      have hstop := h.stops
      rw [heq, search_of_le (by omega) (Nat.le_refl limit)]
      unfold AiPow.abortAt at hstop
      cases hc : p.attemptAt ch limit with
      | error e =>
        rw [hc] at hstop
        cases hstop
        rfl
      | ok won =>
        rw [hc] at hstop
        simp only at hstop ⊢
        split at hstop
        · cases hstop
        · rename_i hno
          cases hstop
          rw [if_neg hno]
          rfl

theorem grind_eq (h : p.StopsAt ch limit a) (hk : ch.k ≠ 0) (hcap : ch.k.toNat ≤ p.capacity)
    {fuel : ℕ} (hfuel : extranonceSpace ≤ fuel) :
    grind p fuel ch = some (denseResult a [] (search (p.wins ch) ch.k.toNat 0 limit)) := by
  have hpos : 0 < ch.k.toNat := UInt64.pos_iff_ne_zero.mpr hk
  rw [grind, if_neg hk, if_neg (Nat.not_lt.mpr hcap)]
  exact grindLoop_eq h (Nat.zero_le limit) (Nat.lt_of_lt_of_le h.lt hfuel) hpos

end Dense

/-! ### The certificates -/

/-- The win's blob encodes a certificate that was proved for its own attempt. -/
def AiWin.Certified (p : AiPow) (ch : AiChallenge) (w : AiWin) : Prop :=
  ∃ cache run, p.prove cache ch.challenge (extranonceNonce w.extranonce) ch.target 0 = .ok run ∧
    run.certificate = .ok w.certBytes ∧
    p.encodeBlob ⟨extranonceNonce w.extranonce, 0, run.traceHeight, run.publicInputs,
      w.certBytes⟩ = .ok w.submissionBytes

def AiMoeWin.Certified (p : MoeProver) (ch : AiMoeChallenge) (w : AiMoeWin) : Prop :=
  ∃ block, p.proveCanonicalMoeBlockAt ch.challenge w.ordinal = .ok block ∧
    block.certificate = some w.certBytes ∧
    p.encodeBlob ⟨w.ordinal, block.publicInputs, w.certBytes⟩ = .ok w.submissionBytes

/-- Each win is of its attempt, if each proof is. -/
theorem proveEach_eq_ok {σ α β : Type} {prove : σ → α → Except BenchAbort (β × σ)} {f : β → α}
    {P : β → Prop} (hprove : ∀ {s a win s'}, prove s a = .ok (win, s') → f win = a ∧ P win) {s : σ}
    {attempts : List α} {wins : List β} (h : proveEach prove s attempts = .ok wins) :
    wins.map f = attempts ∧ ∀ win ∈ wins, P win := by
  induction attempts generalizing s wins with
  | nil =>
    cases h
    simp
  | cons attempt rest ih =>
    simp only [proveEach] at h
    split at h
    · cases h
    rename_i win s' hwin
    obtain ⟨hf, hP⟩ := hprove hwin
    cases hrest : proveEach prove s' rest with
    | error a =>
      rw [hrest] at h
      cases h
    | ok wins' =>
      rw [hrest] at h
      cases h
      obtain ⟨hmap, hall⟩ := ih hrest
      exact ⟨by rw [List.map_cons, hf, hmap], List.forall_mem_cons.mpr ⟨hP, hall⟩⟩

theorem proveWin_eq_ok {p : AiPow} {ch : AiChallenge} {cache cache' : Option p.Cache}
    {extranonce : UInt64} {w : AiWin} (h : proveWin p ch cache extranonce = .ok (w, cache')) :
    w.extranonce = extranonce ∧ w.Certified p ch := by
  simp only [proveWin] at h
  split at h
  · cases h
  rename_i run hrun
  split at h
  · cases h
  rename_i certBytes hcert
  split at h
  · cases h
  rename_i submissionBytes hblob
  cases h
  exact ⟨rfl, cache, run, hrun, hcert, hblob⟩

theorem proveMoeWin_eq_ok {p : MoeProver} {ch : AiMoeChallenge} {ordinal : UInt32} {w : AiMoeWin}
    (h : proveMoeWin p ch ordinal = .ok w) : w.ordinal = ordinal ∧ w.Certified p ch := by
  simp only [proveMoeWin] at h
  split at h
  · cases h
  rename_i block hblock
  split at h
  · cases h
  rename_i certBytes hcert
  split at h
  · cases h
  rename_i submissionBytes hblob
  cases h
  exact ⟨rfl, block, hblock, hcert, hblob⟩

theorem proveWins_certified {p : AiPow} {ch : AiChallenge} {winExtranonces : List UInt64}
    {wins : List AiWin} (h : proveWins p ch winExtranonces = .ok wins) :
    wins.map AiWin.extranonce = winExtranonces ∧ ∀ w ∈ wins, w.Certified p ch :=
  proveEach_eq_ok proveWin_eq_ok h

theorem proveMoeWins_certified {p : MoeProver} {ch : AiMoeChallenge} {winOrdinals : List UInt32}
    {wins : List AiMoeWin} (h : proveMoeWins p ch winOrdinals = .ok wins) :
    wins.map AiMoeWin.ordinal = winOrdinals ∧ ∀ w ∈ wins, w.Certified p ch := by
  refine proveEach_eq_ok ?_ h
  intro _ o w _ hw
  cases hm : proveMoeWin p ch o with
  | error a =>
    rw [hm] at hw
    cases hw
  | ok w' =>
    rw [hm] at hw
    cases hw
    exact proveMoeWin_eq_ok hm

/-- The attempts are proved one after another, each with what those before it left. -/
inductive ProvedEach {σ α β : Type} (prove : σ → α → Except BenchAbort (β × σ)) :
    σ → List α → List β → σ → Prop
  | nil (s : σ) : ProvedEach prove s [] [] s
  | cons {s s' s'' : σ} {attempt : α} {attempts : List α} {win : β} {wins : List β} :
      prove s attempt = .ok (win, s') → ProvedEach prove s' attempts wins s'' →
      ProvedEach prove s (attempt :: attempts) (win :: wins) s''

theorem proveEach_of_all {σ α β : Type} {prove : σ → α → Except BenchAbort (β × σ)} {s s' : σ}
    {attempts : List α} {wins : List β} (h : ProvedEach prove s attempts wins s') :
    proveEach prove s attempts = .ok wins := by
  induction h with
  | nil s => rfl
  | cons hwin _ ih =>
    simp only [proveEach, hwin, ih]
    rfl

/-- All are proved, or there is a first that is not, and its failure is the result. -/
theorem proveEach_cases {σ α β : Type} (prove : σ → α → Except BenchAbort (β × σ)) (s : σ)
    (attempts : List α) :
    (∃ wins s', ProvedEach prove s attempts wins s' ∧ proveEach prove s attempts = .ok wins) ∨
    ∃ before attempt after wins s' e, attempts = before ++ attempt :: after ∧
      ProvedEach prove s before wins s' ∧ prove s' attempt = .error e ∧
      proveEach prove s attempts = .error e := by
  induction attempts generalizing s with
  | nil => exact .inl ⟨[], s, .nil s, rfl⟩
  | cons attempt rest ih =>
    cases hwin : prove s attempt with
    | error e =>
      exact .inr ⟨[], attempt, rest, [], s, e, rfl, .nil s, hwin, by simp only [proveEach, hwin]⟩
    | ok r =>
      obtain ⟨win, s'⟩ := r
      rcases ih s' with ⟨wins, s'', hrest, -⟩ | ⟨before, a, after, wins, s'', e, rfl, hb, ha, heq⟩
      · have hall := ProvedEach.cons hwin hrest
        exact .inl ⟨win :: wins, s'', hall, proveEach_of_all hall⟩
      · refine .inr ⟨attempt :: before, a, after, win :: wins, s'', e, rfl, .cons hwin hb, ha, ?_⟩
        simp only [proveEach, hwin, heq]
        rfl

/-! ### What was ground -/

/-- The wins of a grind of `total` attempts: every attempt that wins, `k` of them, and the last
attempt is one. -/
structure Ground (wins : ℕ → Bool) (k : ℕ) (attempts : List ℕ) (total : ℕ) : Prop where
  all : attempts = hits wins 0 total
  count : attempts.length = k
  last : ∃ w, total = w + 1 ∧ wins w = true

theorem search_ground {wins : ℕ → Bool} {k hi : ℕ} (hk : 0 < k) {ws : List ℕ} {total : ℕ}
    (h : search wins k 0 hi = some (ws, total)) :
    Ground wins k ws total ∧ total ≤ hi ∧ ∀ n ∈ ws, n < hi := by
  obtain ⟨hall, hlen, hle, w, hw, -, hwin⟩ := search_sound hk h
  refine ⟨⟨hall, hlen, w, hw, hwin⟩, hle, ?_⟩
  intro n hn
  rw [hall, mem_hits] at hn
  omega

section Run

variable {p : AiPow} {jackpot : Bytes32 → List UInt8 → Bytes32} {ch : AiChallenge} {fuel limit : ℕ}
  {a : BenchAbort}

theorem grind_stops (h : p.StopsAt ch limit a) (hk : ch.k ≠ 0) (hcap : ch.k.toNat ≤ p.capacity)
    (hfuel : extranonceSpace ≤ fuel) (hfew : (hits (p.wins ch) 0 limit).length < ch.k.toNat) :
    grind p fuel ch = some (.error a) := by
  rw [grind_eq h hk hcap hfuel, search, if_neg (Nat.not_le.mpr hfew)]
  rfl

theorem grind_found (h : p.StopsAt ch limit a) (hk : ch.k ≠ 0) (hcap : ch.k.toNat ≤ p.capacity)
    (hfuel : extranonceSpace ≤ fuel) (hle : ch.k.toNat ≤ (hits (p.wins ch) 0 limit).length) :
    ∃ found, grind p fuel ch = some (.ok found) ∧
      found.winExtranonces = ((hits (p.wins ch) 0 limit).take ch.k.toNat).map UInt64.ofNat ∧
      Ground (p.wins ch) ch.k.toNat (found.winExtranonces.map UInt64.toNat)
        found.totalAttempts.toNat := by
  have hs : search (p.wins ch) ch.k.toNat 0 limit = some ((hits (p.wins ch) 0 limit).take
      ch.k.toNat, (hits (p.wins ch) 0 limit).getD (ch.k.toNat - 1) 0 + 1) := if_pos hle
  obtain ⟨hground, htotal, hlt⟩ := search_ground (UInt64.pos_iff_ne_zero.mpr hk) hs
  have hnat : ∀ n ≤ limit, (UInt64.ofNat n).toNat = n := by
    intro n hn
    exact UInt64.toNat_ofNat_of_lt' (Nat.lt_of_le_of_lt hn h.lt)
  have hmap : (((hits (p.wins ch) 0 limit).take ch.k.toNat).map UInt64.ofNat).map UInt64.toNat =
      (hits (p.wins ch) 0 limit).take ch.k.toNat := by
    rw [List.map_map]
    refine (List.map_congr_left fun n hn => ?_).trans (List.map_id _)
    exact hnat n (Nat.le_of_lt (hlt n hn))
  refine ⟨_, by rw [grind_eq h hk hcap hfuel, hs]; rfl, rfl, ?_⟩
  simp only [List.nil_append, hmap, hnat _ htotal]
  exact hground

/-- A run that was proved. -/
structure AiBenchSummary.Exact (p : AiPow) (ch : AiChallenge) (wins : ℕ → Bool)
    (summary : AiBenchSummary) : Prop where
  ground : Ground wins ch.k.toNat (summary.wins.map fun w => w.extranonce.toNat)
    summary.totalAttempts.toNat
  certified : ∀ w ∈ summary.wins, w.Certified p ch

/-- The winners `first` are proved one after another, or the run fails as the first of them does
that is not proved. -/
def ProvesOrFails (p : AiPow) (ch : AiChallenge) (first : List UInt64)
    (result : Option (Except BenchAbort AiBenchSummary)) : Prop :=
  (∃ summary cache, result = some (.ok summary) ∧
    ProvedEach (proveWin p ch) none first summary.wins cache ∧ summary.Exact p ch (p.wins ch)) ∨
  ∃ before w after wins cache e, result = some (.error e) ∧ first = before ++ w :: after ∧
    ProvedEach (proveWin p ch) none before wins cache ∧ proveWin p ch cache w = .error e

theorem run_of_ground {found : GrindResult} (h : grind p fuel ch = some (.ok found))
    (hground : Ground (p.wins ch) ch.k.toNat (found.winExtranonces.map UInt64.toNat)
      found.totalAttempts.toNat) : ProvesOrFails p ch found.winExtranonces (run p fuel ch) := by
  have hrun : run p fuel ch = some ((proveWins p ch found.winExtranonces).map
      fun wins => ⟨wins, found.totalAttempts⟩) := by rw [run, h]
  rcases proveEach_cases (proveWin p ch) none found.winExtranonces with
    ⟨wins, cache, hproved, hwins⟩ | ⟨before, w, after, wins, cache, e, heq, hproved, hw, hwins⟩
  · obtain ⟨hmap, hall⟩ := proveWins_certified hwins
    refine .inl ⟨⟨wins, found.totalAttempts⟩, cache, ?_, hproved, ?_, hall⟩
    · rw [hrun, proveWins, hwins]
      rfl
    · rw [← hmap, List.map_map] at hground
      exact hground
  · refine .inr ⟨before, w, after, wins, cache, e, ?_, heq, hproved, hw⟩
    rw [hrun, proveWins, hwins]
    rfl

/-- A run that returns is exact. -/
theorem run_eq_ok (hp : p.Lawful jackpot) (hfuel : extranonceSpace ≤ fuel)
    {summary : AiBenchSummary} (h : run p fuel ch = some (.ok summary)) :
    summary.Exact p ch (denseWins (jackpot ch.challenge) ch.target) := by
  rw [← hp.wins_eq]
  by_cases hk : ch.k = 0
  · rw [run, grind, if_pos hk] at h
    cases h
  rcases Nat.lt_or_ge p.capacity ch.k.toNat with hcap | hcap
  · rw [run, grind, if_neg hk, if_pos hcap] at h
    cases h
  rcases Nat.lt_or_ge (hits (p.wins ch) 0 (extranonceSpace - 1)).length ch.k.toNat with hfew | hle
  · rw [run, grind_stops hp.stopsAt hk hcap hfuel hfew] at h
    cases h
  obtain ⟨found, hfound, -, hground⟩ := grind_found hp.stopsAt hk hcap hfuel hle
  rcases run_of_ground hfound hground with ⟨summary', -, hrun, -, hexact⟩ |
    ⟨-, -, -, -, -, e, hrun, -⟩
  · cases hrun.symm.trans h
    exact hexact
  · cases hrun.symm.trans h

/-- For every prover, challenge, target and `k`, with fuel for every extranonce. There is an
extranonce that the loop does not get over: the first whose attempt cannot be evaluated, or the last
one. The run aborts for `k = 0`; where a vector cannot hold `k` wins; and, as it does at that
extranonce, where fewer than `k` before it win. Otherwise the `k` lowest winners are proved in
ascending order, each with the cache that those before it left. If all are, the run returns them,
each with a certificate of its own attempt, and the number of attempts through the last of them; and
else it aborts as the first does that is not. -/
theorem run_exact (p : AiPow) (ch : AiChallenge) {fuel : ℕ} (hfuel : extranonceSpace ≤ fuel) :
    ∃ limit a, p.StopsAt ch limit a ∧
      let winners := hits (p.wins ch) 0 limit
      (ch.k = 0 → run p fuel ch = some (.error .kZero)) ∧
      (ch.k ≠ 0 → p.capacity < ch.k.toNat → run p fuel ch = some (.error .capacity)) ∧
      (ch.k ≠ 0 → ch.k.toNat ≤ p.capacity → winners.length < ch.k.toNat →
        run p fuel ch = some (.error a)) ∧
      (ch.k ≠ 0 → ch.k.toNat ≤ p.capacity → ch.k.toNat ≤ winners.length →
        ProvesOrFails p ch ((winners.take ch.k.toNat).map UInt64.ofNat) (run p fuel ch)) := by
  obtain ⟨limit, a, hstop⟩ := exists_stopsAt p ch
  refine ⟨limit, a, hstop, ?_, ?_, ?_, ?_⟩
  · intro hk
    rw [run, grind, if_pos hk]
  · intro hk hcap
    rw [run, grind, if_neg hk, if_pos hcap]
  · intro hk hcap hfew
    rw [run, grind_stops hstop hk hcap hfuel hfew]
  · intro hk hcap hle
    obtain ⟨found, hfound, heq, hground⟩ := grind_found hstop hk hcap hfuel hle
    exact heq ▸ run_of_ground hfound hground

end Run

/-- Every attempt wins, and its certificate is its nonce. -/
def everyAttempt : AiPow where
  Pis := Unit
  Cache := Unit
  capacity := 1000
  attempt _ _ _ := .ok true
  prove _ _ nonce _ _ := .ok ⟨.ok nonce, 1, (), some ()⟩
  encodeBlob blob := .ok (blob.nonce ++ blob.certBytes)

theorem run_exact_everyAttempt : ∃ summary,
    run everyAttempt extranonceSpace ⟨.fill 32 1, .fill 32 0, 2⟩ = some (.ok summary) ∧
      summary.wins.map AiWin.extranonce = [0, 1] := by
  obtain ⟨limit, a, hstop, -, -, -, hrun⟩ :=
    run_exact everyAttempt ⟨.fill 32 1, .fill 32 0, 2⟩ (Nat.le_refl extranonceSpace)
  have hlast : 2 ≤ limit := by
    have hstops := hstop.stops
    unfold AiPow.abortAt at hstops
    simp only [AiPow.attemptAt, everyAttempt] at hstops
    split at hstops
    · cases hstops
    · unfold extranonceSpace at *
      omega
  have hwinners : hits (everyAttempt.wins ⟨.fill 32 1, .fill 32 0, 2⟩) 0 limit =
      List.range limit := by
    have hall : (List.range' 0 (limit - 0)).filter
        (everyAttempt.wins ⟨.fill 32 1, .fill 32 0, 2⟩) = List.range' 0 (limit - 0) :=
      List.filter_eq_self.mpr fun _ _ => rfl
    rw [hits, hall, Nat.sub_zero, ← List.range_eq_range']
  have htake : ((List.range limit).take 2).map UInt64.ofNat = [0, 1] := by
    rw [List.take_range, Nat.min_eq_left hlast]
    rfl
  have hk : (2 : UInt64).toNat = 2 := rfl
  simp only [hwinners, List.length_range, hk, htake] at hrun
  rcases hrun (by decide) (by decide) hlast with ⟨summary, cache, hok, hproved, -⟩ |
    ⟨-, w, -, -, cache, e, -, -, -, hfails⟩
  · exact ⟨summary, hok, (proveWins_certified (proveEach_of_all hproved)).1⟩
  · cases hfails

/-! ### The canonical MoE runs -/

section Moe

variable {u : Canonical} {g : Gpu} {jackpot : Bytes32 → UInt32 → Bytes32} {ch : AiMoeChallenge}
  {threshold : Bytes32} {batchAttempts : ℕ} {backend : Backend} {fuel : ℕ}

theorem searchResult_ground {wins : ℕ → Bool} {k hi : ℕ} (hk : 0 < k)
    (hhi : hi ≤ canonicalOrdinalSpace) {e : Abort} {found : MoeGrindResult}
    (h : searchResult e [] (search wins k 0 hi) = .ok found) :
    Ground wins k (found.winOrdinals.map UInt32.toNat) found.totalAttempts := by
  cases hs : search wins k 0 hi with
  | none =>
    rw [hs] at h
    cases h
  | some r =>
    obtain ⟨hground, -, hlt⟩ := search_ground hk hs
    have hmap : (r.1.map UInt32.ofNat).map UInt32.toNat = r.1 := by
      rw [List.map_map]
      refine (List.map_congr_left fun n hn => ?_).trans (List.map_id _)
      exact UInt32.toNat_ofNat_of_lt' (Nat.lt_of_lt_of_le (hlt n hn) hhi)
    rw [hs] at h
    cases h
    simp only [List.nil_append, hmap]
    exact hground

/-- A grind that ends has found what its ordinals say, on either backend. -/
theorem grindOn_ground (hu : u.Lawful jackpot) (hg : g.Lawful jackpot)
    (ht : u.canonicalGrindThreshold ch.target = .ok threshold)
    (hbatch : 0 < batchAttempts) (hfuel : canonicalOrdinalSpace < fuel)
    {found : MoeGrindResult} (h : grindOn u g fuel ch batchAttempts backend = some (.ok found)) :
    Ground (wins (jackpot ch.challenge) threshold) ch.k.toNat
      (found.winOrdinals.map UInt32.toNat) found.totalAttempts := by
  by_cases hk : ch.k = 0
  · cases backend <;> simp [grindOn, grindMoe, grindMoeGpu, hk] at h
  have hpos : 0 < ch.k.toNat := UInt64.pos_iff_ne_zero.mpr hk
  cases backend with
  | cpu =>
    rw [grindOn, grindMoe_eq hu hk ht (Nat.le_of_lt hfuel)] at h
    exact searchResult_ground hpos (Nat.sub_le _ _) (Option.some.inj h)
  | gpu _ =>
    rw [grindOn, grindMoeGpu_eq hu hg hk ht hbatch hfuel] at h
    split at h
    · cases h
    · exact searchResult_ground hpos (Nat.le_refl _) (Option.some.inj h)

/-- A run that was proved. -/
structure AiMoeBenchSummary.Exact (p : MoeProver) (ch : AiMoeChallenge) (wins : ℕ → Bool)
    (summary : AiMoeBenchSummary) : Prop where
  ground : Ground wins ch.k.toNat (summary.wins.map fun w => w.ordinal.toNat)
    summary.totalAttempts
  certified : ∀ w ∈ summary.wins, w.Certified p ch

theorem runMoe_exact (hu : u.Lawful jackpot) (hg : g.Lawful jackpot)
    (ht : u.canonicalGrindThreshold ch.target = .ok threshold)
    (hbatch : 0 < batchAttempts) (hfuel : canonicalOrdinalSpace < fuel)
    {p : MoeProver} {summary : AiMoeBenchSummary}
    (h : runMoe u g p fuel ch batchAttempts backend = some (.ok summary)) :
    summary.Exact p ch (wins (jackpot ch.challenge) threshold) := by
  unfold runMoe at h
  split at h
  · cases h
  · cases h
  · rename_i found hfound
    have hground := grindOn_ground hu hg ht hbatch hfuel hfound
    cases hwins : proveMoeWins p ch found.winOrdinals with
    | error e =>
      rw [hwins] at h
      cases h
    | ok wins' =>
      rw [hwins] at h
      cases h
      obtain ⟨hmap, hall⟩ := proveMoeWins_certified hwins
      rw [← hmap, List.map_map] at hground
      exact ⟨hground, hall⟩

end Moe

end Tock
end Nockmark
