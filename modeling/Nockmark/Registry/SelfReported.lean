import Nockmark.Kernel.Window
import Nockmark.Registry.Board
import Nockmark.Registry.Pokes

/-!
# Registry.SelfReported

The verified figure of a ZK run next to the one that its submitter reports.

The kernel rejects a claimed time that exceeds the window on its own clock, and the handler rejects
a claim of zero. The board computes the window again, in fixed-width arithmetic.

* `Run.WindowAgrees`: the two windows are the same number of milliseconds.
* `verified_le_selfReported`: so it is for every run that a kernel records, and on the board of a
  server the verified rate never exceeds the self-reported one.
-/

namespace Nockmark
namespace Registry

open Kernel (RunRecord Run RegistryState daDiffToMs windowMs h1 submitCause)

/-- The driver computes the kernel's window, and no step of it meets the limits of its types. -/
structure Run.WindowAgrees (r : Run) : Prop where
  issued_le : r.issuedAt ≤ r.submittedAt
  submitted_le : r.submittedAt ≤ r.issuedAt + h1
  unsaturated : (r.submittedAt - r.issuedAt) * 1000 < 2 ^ 128
  untruncated : ((r.submittedAt - r.issuedAt) * 1000) >>> 64 < 2 ^ 64
  agrees : daDiffToMs r.issuedAt r.submittedAt = windowMs r.issuedAt r.submittedAt
  elapsed_le : r.elapsedMs ≤ daDiffToMs r.issuedAt r.submittedAt

theorem windowAgrees_of_inWindow {r : Run} (h : r.InWindow) : Run.WindowAgrees r := by
  obtain ⟨h1, h2, h3⟩ := h
  have hagrees : daDiffToMs r.issuedAt r.submittedAt = windowMs r.issuedAt r.submittedAt :=
    Kernel.daDiffToMs_eq h2
  refine ⟨h1, h2, ?_, ?_, hagrees, hagrees ▸ h3⟩
  · unfold Kernel.h1 Kernel.s1 at h2
    omega
  · rw [Nat.shiftRight_eq_div_pow]
    unfold Kernel.h1 Kernel.s1 at h2
    omega

/-- `k` per claimed time, in proofs per second. -/
def LeaderboardEntry.selfReportedRate (e : LeaderboardEntry) : ℚ :=
  e.run.k / (e.run.elapsedMs / 1000)

theorem toEntry_le_selfReported (econ : Econ) {rec : RunRecord} (h0 : 1 ≤ rec.elapsedMs)
    (h : rec.elapsedMs ≤ daDiffToMs rec.issuedAt rec.submittedAt) :
    (toEntry econ rec).exactRate ≤ (toEntry econ rec).selfReportedRate := by
  have hw : rec.elapsedMs ≤ max (daDiffToMs rec.issuedAt rec.submittedAt) 1 :=
    h.trans (Nat.le_max_left _ _)
  have hpos : (0 : ℚ) < rec.elapsedMs := by exact_mod_cast h0
  have hle : (rec.elapsedMs : ℚ) ≤ (max (daDiffToMs rec.issuedAt rec.submittedAt) 1 : ℕ) := by
    exact_mod_cast hw
  show (rec.k : ℚ) / (((max (daDiffToMs rec.issuedAt rec.submittedAt) 1 : ℕ) : ℚ) / 1000) ≤
    rec.k / (rec.elapsedMs / 1000)
  gcongr

/-! ### Runs submitted through the server -/

/-- The handler submits no run that claims no time. -/
def Claimed (s : RegistryState) : Prop := ∀ r ∈ s.runs, 1 ≤ r.elapsedMs

theorem validate_elapsed {zk : ZkEnv} {k : UInt64} {body : Except String RunSubmission}
    {nonce : UInt64} {sub : RunSubmission} (h : validate zk k body = .ok (nonce, sub)) :
    1 ≤ sub.elapsedMs.toNat := by
  unfold validate at h
  split at h
  · cases h
  split at h
  · cases h
  split at h
  · cases h
  rename_i hne
  iterate 3
    split at h
    · cases h
  split at h
  · cases h
  cases h
  exact Nat.one_le_iff_ne_zero.mpr fun h0 => hne (UInt64.toNat_inj.mp h0)

theorem Claimed.step {zk : ZkEnv} {k : UInt64} {s : RegistryState} (h : Claimed s)
    {p : Kernel.Poke} (hp : HandlerPoke zk k p) : Claimed (Kernel.step s p) := by
  obtain heq | ⟨-, heq⟩ | ⟨n, hw, pv, k', ms, c, hc, -, -, -, -, -, heq⟩ := Kernel.step_cases s p
  · rw [heq]; exact h
  · rw [heq]; exact h
  · rw [heq]
    intro r hr
    rcases List.mem_cons.mp hr with rfl | hr
    · show 1 ≤ ms
      cases hp with
      | mint => rw [Kernel.softCause_mintCause] at hc; cases hc
      | submit eny now hv hd =>
        rw [Kernel.softCause_submitCause hd] at hc
        cases hc
        exact validate_elapsed hv
    · exact h r hr

theorem claimed_of_reach {zk : ZkEnv} {k : UInt64} {s : RegistryState}
    (h : Kernel.kernel.Reach (fun _ p => HandlerPoke zk k p) s) : Claimed s :=
  h.inv (fun r hr => by cases hr) fun _ _ hs hp => hs.step hp

theorem run_of_mem_leaderboard {econ : Econ} {s : RegistryState} {entries : List LeaderboardEntry}
    (h : leaderboard econ s = .ok entries) {e : LeaderboardEntry} (he : e ∈ entries) :
    ∃ r ∈ s.runs, RunRecord.fromNoun r = .ok e.run ∧ e = toEntry econ e.run := by
  unfold leaderboard at h
  split at h
  · rename_i recs hrecs
    cases h
    obtain ⟨rec, hrec, rfl⟩ := List.mem_map.mp ((Kit.Ranking.rank_perm _ _).mem_iff.mp he)
    obtain ⟨r, hr, hdec⟩ := Kernel.mem_right_of_forall₂ (Kernel.leaderboard_eq_ok hrecs) hrec
    exact ⟨r, hr, hdec, rfl⟩
  · cases h

/-- Kernel and driver agree on the window of every recorded run, which is no shorter than the
claimed time. So on the board of a server, whatever its handlers do, no run's verified rate exceeds
its self-reported rate. -/
theorem verified_le_selfReported :
    (∀ s, Kernel.kernel.Reach Kit.Machine.free s → ∀ r ∈ s.runs, Run.WindowAgrees r) ∧
    ∀ (J : SerdeJson) (env : AiEnv) (zk : ZkEnv) (config : Config) (w : Kit.Threads Server Phase),
      ((handlers J env zk).threads (.boot Kernel.init config)).Reach Kit.Machine.free w →
      ∀ (econ : Econ) (entries : List LeaderboardEntry),
        leaderboard econ w.shared.kernel = .ok entries → ∀ e ∈ entries,
          1 ≤ e.run.elapsedMs ∧ e.exactRate ≤ e.selfReportedRate ∧
          e.proofsPerSec ≤ e.selfReportedPps := by
  have hwindow : ∀ (G : RegistryState → Kernel.Poke → Prop) (s : RegistryState),
      Kernel.kernel.Reach G s → ∀ r ∈ s.runs, Run.WindowAgrees r :=
    fun G s h r hr => windowAgrees_of_inWindow (Kernel.inWindow_of_reach h r hr)
  refine ⟨hwindow _, ?_⟩
  intro J env zk config w h econ entries hentries e he
  have hpokes := pokes_of_reach (P := fun _ => True)
    (h.mono (H := fun _ i => i.2.Times fun _ => True) fun _ i _ => i.2.times_true)
  obtain ⟨r, hr, hdec, heq⟩ := run_of_mem_leaderboard hentries he
  obtain ⟨-, -, -, hms, hi, hs⟩ := Kernel.RunRecord.fromNoun_eq_ok hdec
  have hclaim : 1 ≤ e.run.elapsedMs := by
    rw [hms]
    exact claimed_of_reach (hpokes.mono fun _ _ hp => hp.1) r hr
  have hle : e.run.elapsedMs ≤ daDiffToMs e.run.issuedAt e.run.submittedAt := by
    rw [hms, hi, hs]
    exact (hwindow _ _ hpokes r hr).elapsed_le
  have hrate := toEntry_le_selfReported econ hclaim hle
  rw [← heq] at hrate
  refine ⟨hclaim, hrate, ?_⟩
  rw [heq] at hrate ⊢
  exact round4_mono hrate

/-- Nonce 7 is minted by one handler, and one proof submitted by another a second later. -/
def oneProofServed : Kit.Threads Server Phase :=
  let m := (handlers .compact strict (provesOnly "7")).threads (.boot Kernel.init (zkConfig 1))
  m.run m.init
    [(0, .newChallenge fun _ => none), (0, .mint 7 0),
      (1, .submit (fun _ => none) ⟨.ok (oneProof "7"), .error ""⟩), (1, .poke 0 Kernel.s1)]

theorem verified_le_selfReported_oneProof :
    ∃ entries, leaderboard ⟨none, 150⟩ oneProofServed.shared.kernel = .ok entries ∧
      ∃ e ∈ entries, e.run.elapsedMs = 900 ∧ e.proofsPerSec ≤ e.selfReportedPps := by
  have h := Kit.Machine.reach_run_free
    ((handlers .compact strict (provesOnly "7")).threads (.boot Kernel.init (zkConfig 1)))
    [(0, .newChallenge fun _ => none), (0, .mint 7 0),
      (1, .submit (fun _ => none) ⟨.ok (oneProof "7"), .error ""⟩), (1, .poke 0 Kernel.s1)]
  have hboard : leaderboard ⟨none, 150⟩ oneProofServed.shared.kernel =
      .ok [toEntry ⟨none, 150⟩ ⟨0, 7, "m1-max", "0.1.0", 1, 900, 0, Kernel.s1⟩] := by
    have hrecs : Kernel.leaderboard oneProofServed.shared.kernel =
        .ok [⟨0, 7, "m1-max", "0.1.0", 1, 900, 0, Kernel.s1⟩] := rfl
    rw [leaderboard, hrecs]
    exact congrArg Except.ok (Kit.Ranking.rank_of_pairwise (List.pairwise_singleton _ _))
  exact ⟨_, hboard, _, List.mem_singleton.mpr rfl, rfl,
    (verified_le_selfReported.2 _ _ _ _ _ h _ _ hboard _ (List.mem_singleton.mpr rfl)).2.2⟩

end Registry
end Nockmark
