import Nockmark.Kernel.Driver
import Nockmark.Kit.Ranking
import Nockmark.Registry.Store

/-!
# Registry.Board

The leaderboard (`registry/src/http.rs`): entries with their computed figures, the greatest ranked
figure first.

The f64 figures are read as exact rationals. The ZK board lists the kernel's runs, newest first;
the AI board the store's, oldest first.

* `round4_mono`, `signif4_mono`: rounding keeps the order of the rates.
* `proofsPerSec_eq`: the ZK figure as a quotient of naturals, rounded.
* `board_order`: what the ranked figures, being rounded, say about the order of the exact rates.
-/

namespace Nockmark
namespace Registry

open Kernel (RunRecord RegistryState NockAppError)
open Kit.Ranking (rank)
open Tock (Bytes32 parseHex32)

/-- To the nearest multiple of 1/10000. -/
def round4 (x : ℚ) : ℚ := Kit.Round.roundAway (x * 10000) / 10000

structure EconParams where
  difficulty : ℚ
  blockRewardNock : ℚ

def nockPerDay (pps : ℚ) (p : EconParams) : ℚ := pps * 86400 / p.difficulty * p.blockRewardNock

def networkPps (blockTimeSecs : ℚ) (p : EconParams) : ℚ := p.difficulty / blockTimeSecs

/-- What the operator configures for the estimates. -/
structure Econ where
  params : Option EconParams
  blockTimeSecs : ℚ

structure LeaderboardEntry where
  run : RunRecord
  serverWindowMs : Nat
  proofsPerSec : ℚ
  selfReportedPps : ℚ
  estNockPerDay : Option ℚ
  networkShare : Option ℚ

def toEntry (econ : Econ) (run : RunRecord) : LeaderboardEntry :=
  let serverWindowMs := max (Kernel.daDiffToMs run.issuedAt run.submittedAt) 1
  let proofsPerSec := round4 (run.k / (serverWindowMs / 1000))
  { run
    serverWindowMs
    proofsPerSec
    selfReportedPps := round4 (run.k / (run.elapsedMs / 1000))
    estNockPerDay := econ.params.map fun p => round4 (nockPerDay proofsPerSec p)
    networkShare := econ.params.map fun p => proofsPerSec / networkPps econ.blockTimeSecs p }

structure AiLeaderboardEntry where
  run : AiRunRecord
  serverWindowMs : Nat
  rates : AiRates

/-- The fallback for a target that does not parse. -/
def maxTarget : Bytes32 := .fill 32 0xff

/-- `none` is a panic of `parse_hex32`. -/
def toAiEntry (rnd : ℚ → ℚ) (moeThreshold : Bytes32 → Except String Bytes32) (run : AiRunRecord) :
    Option AiLeaderboardEntry :=
  let serverWindowMs := max (satSub run.submittedAtMs run.issuedAtMs).toNat 1
  (parseHex32 run.target).map fun parsed =>
    { run
      serverWindowMs
      rates := rates rnd moeThreshold run.statement run.k (parsed.toOption.getD maxTarget)
        serverWindowMs run.grindElapsedMs.toNat }

/-- The ZK board of the given runs. -/
def board (econ : Econ) (runs : List RunRecord) : List LeaderboardEntry :=
  rank LeaderboardEntry.proofsPerSec (runs.map (toEntry econ))

def leaderboard (econ : Econ) (s : RegistryState) : Except NockAppError (List LeaderboardEntry) :=
  match Kernel.leaderboard s with
  | .ok runs => .ok (board econ runs)
  | .error e => .error e

/-- The AI board of the given runs. -/
def aiBoard (rnd : ℚ → ℚ) (moeThreshold : Bytes32 → Except String Bytes32)
    (runs : List AiRunRecord) : Option (List AiLeaderboardEntry) :=
  (runs.mapM (toAiEntry rnd moeThreshold)).map
    (rank fun e => e.rates.verifiedMacPerSecLb)

def aiLeaderboard (rnd : ℚ → ℚ) (moeThreshold : Bytes32 → Except String Bytes32) (s : AiStore) :
    Option (List AiLeaderboardEntry) := aiBoard rnd moeThreshold s.runs

/-! ### Rates behind the figures -/

/-- `k` per server window, in proofs per second. -/
def LeaderboardEntry.exactRate (e : LeaderboardEntry) : ℚ := e.run.k / (e.serverWindowMs / 1000)

/-- `k` times expected attempts times `F` per server window, in MAC-equivalents per second. -/
def AiLeaderboardEntry.exactRate (e : AiLeaderboardEntry) : ℚ :=
  e.run.k * e.rates.expectedAttemptsPerWin * e.run.statement.macEquivPerAttempt /
    (e.serverWindowMs / 1000)

theorem round4_mono : Monotone round4 := by
  intro x y hxy
  unfold round4
  have h : x * 10000 ≤ y * 10000 := by linarith
  have hr : ((Kit.Round.roundAway (x * 10000) : ℤ) : ℚ) ≤ Kit.Round.roundAway (y * 10000) := by
    exact_mod_cast Kit.Round.roundAway_mono h
  linarith

theorem signif4_mono {x y : ℚ} (hx : 0 ≤ x) (hxy : x ≤ y) : signif4 x ≤ signif4 y :=
  Kit.Round.signif_mono 3 hx hxy

theorem toEntry_proofsPerSec (econ : Econ) (run : RunRecord) :
    (toEntry econ run).proofsPerSec = round4 (toEntry econ run).exactRate := rfl

/-- The published figure as a rounded quotient of naturals, in ten-thousandths. -/
theorem proofsPerSec_eq (econ : Econ) (run : RunRecord) :
    (toEntry econ run).proofsPerSec =
      Kit.Round.roundAway ((10000000 * run.k : ℕ) / ((toEntry econ run).serverWindowMs : ℕ)) /
        10000 := by
  have hx : (toEntry econ run).exactRate * 10000 =
      (10000000 * run.k : ℕ) / ((toEntry econ run).serverWindowMs : ℚ) := by
    show (run.k : ℚ) / ((toEntry econ run).serverWindowMs / 1000) * 10000 = _
    push_cast
    rw [div_div_eq_mul_div]
    ring
  rw [toEntry_proofsPerSec, round4, hx]

theorem Statement.macEquivPerAttempt_nonneg (s : Statement) : 0 ≤ s.macEquivPerAttempt := by
  cases s <;> norm_num [Statement.macEquivPerAttempt]

theorem toAiEntry_eq_some {moeThreshold : Bytes32 → Except String Bytes32} {run : AiRunRecord}
    {e : AiLeaderboardEntry} (h : toAiEntry id moeThreshold run = some e) :
    e.rates.verifiedMacPerSecLb = signif4 e.exactRate ∧ 0 ≤ e.exactRate := by
  unfold toAiEntry at h
  obtain ⟨parsed, -, rfl⟩ := Option.map_eq_some_iff.mp h
  have hm := run.statement.macEquivPerAttempt_nonneg
  have he := run.statement.expectedAttemptsPerWin_nonneg moeThreshold
    (parsed.toOption.getD maxTarget)
  constructor
  · simp only [AiLeaderboardEntry.exactRate, rates, macPerSec]
    rw [Nat.max_assoc, Nat.max_self]
  · simp only [AiLeaderboardEntry.exactRate, rates]
    positivity

theorem mem_of_mapM {α β : Type} {f : α → Option β} {as : List α} {bs : List β}
    (h : as.mapM f = some bs) {b : β} (hb : b ∈ bs) : ∃ a ∈ as, f a = some b := by
  induction as generalizing bs with
  | nil => cases h; cases hb
  | cons a as ih =>
    rw [List.mapM_cons] at h
    cases ha : f a with
    | none => rw [ha] at h; cases h
    | some b' =>
      cases hs : as.mapM f with
      | none => rw [ha, hs] at h; cases h
      | some bs' =>
        rw [ha, hs] at h
        cases h
        rcases List.mem_cons.mp hb with rfl | hb
        · exact ⟨a, List.mem_cons_self, ha⟩
        · obtain ⟨a', ha', h'⟩ := ih hs hb
          exact ⟨a', List.mem_cons_of_mem _ ha', h'⟩

/-- The listing has every stored entry as often as it is stored. Of two entries, the one with the
greater exact rate does not publish less, and stands first if it publishes more; entries that
publish the same, whatever their exact rates, keep the order in which they are stored. -/
structure OrderedBy {ε : Type} (stored listed : List ε) (published exact : ε → ℚ) : Prop where
  perm : listed.Perm stored
  faster : ∀ a ∈ listed, ∀ b ∈ listed, exact b < exact a →
    published b ≤ published a ∧ (published b ≠ published a → [a, b].Sublist listed)
  ties : ∀ a b, published a = published b → [a, b].Sublist stored → [a, b].Sublist listed

theorem orderedBy_rank {ε : Type} {published exact : ε → ℚ} {l : List ε}
    (hmono : ∀ a ∈ l, ∀ b ∈ l, exact a ≤ exact b → published a ≤ published b) :
    OrderedBy l (rank published l) published exact where
  perm := Kit.Ranking.rank_perm published l
  faster a ha b hb h := by
    have hp := Kit.Ranking.rank_perm published l
    exact Kit.Ranking.rank_rate hmono (hp.mem_iff.mp ha) (hp.mem_iff.mp hb) h
  ties _ _ h hl := Kit.Ranking.rank_stable h hl

/-- Both boards, against the exact verified rates. -/
theorem board_order (econ : Econ) (runs : List RunRecord)
    (moeThreshold : Bytes32 → Except String Bytes32) (aiRuns : List AiRunRecord) :
    OrderedBy (runs.map (toEntry econ)) (board econ runs) LeaderboardEntry.proofsPerSec
      LeaderboardEntry.exactRate ∧
    ∀ stored listed, aiRuns.mapM (toAiEntry id moeThreshold) = some stored →
      aiBoard id moeThreshold aiRuns = some listed →
      OrderedBy stored listed (fun e => e.rates.verifiedMacPerSecLb)
        AiLeaderboardEntry.exactRate := by
  constructor
  · apply orderedBy_rank
    intro a ha b hb hab
    obtain ⟨ra, -, rfl⟩ := List.mem_map.mp ha
    obtain ⟨rb, -, rfl⟩ := List.mem_map.mp hb
    rw [toEntry_proofsPerSec, toEntry_proofsPerSec]
    exact round4_mono hab
  · intro stored listed hs hl
    rw [aiBoard, hs] at hl
    cases hl
    apply orderedBy_rank
    intro a ha b hb hab
    obtain ⟨ra, -, hra⟩ := mem_of_mapM hs ha
    obtain ⟨rb, -, hrb⟩ := mem_of_mapM hs hb
    obtain ⟨hva, hna⟩ := toAiEntry_eq_some hra
    obtain ⟨hvb, -⟩ := toAiEntry_eq_some hrb
    simp only [hva, hvb]
    exact signif4_mono hna hab

/-- One proof in `seconds` seconds. -/
def oneProofIn (id seconds : Nat) : RunRecord :=
  ⟨id, id, "m1-max", "0.1.0", 1, 1000, 0, seconds * 2 ^ 64⟩

/-- One proof in 3599 s and a later one in 3600 s both publish 0.0003, so the later, slower run
stays in front. -/
theorem slower_listed_first :
    ¬ ∀ (econ : Econ) (runs : List RunRecord), ∀ a ∈ board econ runs, ∀ b ∈ board econ runs,
      b.exactRate < a.exactRate → [a, b].Sublist (board econ runs) := by
  intro h
  let econ : Econ := ⟨none, 150⟩
  let slow := toEntry econ (oneProofIn 1 3600)
  let fast := toEntry econ (oneProofIn 0 3599)
  have hslow : slow.proofsPerSec = 3 / 10000 := by
    rw [proofsPerSec_eq, show slow.serverWindowMs = 3600000 by decide,
      Kit.Round.roundAway_natDiv _ (by omega)]
    norm_num [oneProofIn]
  have hfast : fast.proofsPerSec = 3 / 10000 := by
    rw [proofsPerSec_eq, show fast.serverWindowMs = 3599000 by decide,
      Kit.Round.roundAway_natDiv _ (by omega)]
    norm_num [oneProofIn]
  have hboard : board econ [oneProofIn 1 3600, oneProofIn 0 3599] = [slow, fast] := by
    apply Kit.Ranking.rank_of_pairwise
    simp only [List.map_cons, List.map_nil, List.pairwise_cons, List.mem_singleton, forall_eq,
      List.Pairwise.nil, List.not_mem_nil, IsEmpty.forall_iff, implies_true, and_true]
    exact le_of_eq (hfast.trans hslow.symm)
  have hrate : slow.exactRate < fast.exactRate := by
    simp only [LeaderboardEntry.exactRate, show slow.serverWindowMs = 3600000 by decide,
      show fast.serverWindowMs = 3599000 by decide, show slow.run.k = 1 from rfl,
      show fast.run.k = 1 from rfl]
    norm_num
  have hsub := h econ [oneProofIn 1 3600, oneProofIn 0 3599] fast (by simp [hboard]) slow
    (by simp [hboard]) hrate
  rw [hboard] at hsub
  have heq : fast.run.id = slow.run.id := by rw [(List.cons.inj (hsub.eq_of_length rfl)).1]
  exact absurd heq (by decide)

end Registry
end Nockmark
