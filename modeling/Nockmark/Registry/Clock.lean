import Nockmark.Registry.Board
import Nockmark.Registry.Torn

/-!
# Registry.Clock

The window that ranks an AI run, when the server's clock may step backwards.

`challenge_status` subtracts with saturation, so a reading before the mint counts as an age of
zero and the commit goes through; `to_ai_entry` then clamps the negative window to 1 ms.

* `Forward`: the clock of an accepted commit has not gone back behind the mint.
* `runs_inWindow`: in histories of such commits every stored run lies within the window, and is
  ranked by its real length.
* `minted_later_than_submitted`: a clock that goes back by half a second.
-/

namespace Nockmark
namespace Registry

open Tock (Bytes32)

def AiRunRecord.InWindow (r : AiRunRecord) : Prop :=
  r.issuedAtMs.toNat ≤ r.submittedAtMs.toNat ∧
    r.submittedAtMs.toNat ≤ r.issuedAtMs.toNat + aiWindowMs.toNat

/-- A commit whose challenge is accepted reads no earlier time than its mint did. -/
def Forward (w : World) : Op → Prop
  | .commit _ _ sub nowMs =>
    ∀ s p, w.live = some s → challengeStatus s sub.nonce nowMs = .ok p → p.issuedAtMs ≤ nowMs
  | _ => True

theorem newRun_inWindow {s : AiStore} {sub : Submission} {nowMs : UInt64} {p : PendingChallenge}
    (h : challengeStatus s sub.nonce nowMs = .ok p) (hf : p.issuedAtMs ≤ nowMs) :
    (newRun s sub p nowMs).InWindow := by
  obtain ⟨-, -, hw⟩ := challengeStatus_eq_ok h
  rw [UInt64.le_iff_toNat_le, satSub_toNat] at hw
  rw [UInt64.le_iff_toNat_le] at hf
  exact ⟨hf, show nowMs.toNat ≤ p.issuedAtMs.toNat + aiWindowMs.toNat by omega⟩

/-- If the event records a run, the run lies within its window. -/
def Timely : Event → Prop
  | .challenge _ _ => True
  | .run r => r.InWindow

theorem event?_timely {w : World} {op : Op} (hf : Forward w op) {s : AiStore}
    (hs : w.live = some s) {a : Append} {crash : Bool} {e : Event}
    (he : op.event? s = some (a, crash, e)) : Timely e := by
  cases op with
  | record a' crash' nonce t target => cases he; trivial
  | commit a' crash' sub nowMs =>
    obtain ⟨p, hp, -, -, rfl⟩ := event?_commit he
    exact newRun_inWindow hp (hf s p hs hp)
  | restart => cases he

def AiStore.Timed (s : AiStore) : Prop := ∀ r ∈ s.runs, r.InWindow

theorem AiStore.Timed.apply {s : AiStore} (h : s.Timed) {e : Event} (he : Timely e) :
    (s.apply e).Timed := by
  cases e with
  | challenge nonce p => exact h
  | run r =>
    exact List.forall_mem_append.mpr ⟨h, List.forall_mem_singleton.mpr he⟩

theorem timed_replay {es : List Event} (h : ∀ e ∈ es, Timely e) : (replay es).Timed := by
  induction es using List.reverseRecOn with
  | nil => exact fun r hr => by cases hr
  | append_singleton es e ih =>
    rw [replay_append]
    exact (ih fun e he => h e (List.mem_append_left _ he)).apply (h e (by simp))

/-- Runs within their windows, in the file and in memory. -/
structure World.Timed (J : SerdeJson) (w : World) : Prop where
  disk : Pieces J Timely w.disk
  live : ∀ s, w.live = some s → s.Timed

theorem World.Timed.step {J : SerdeJson} (hJ : J.RejectsTorn) {w : World} (h : w.Timed J) {op : Op}
    (hf : Forward w op) : (w.step J op).Timed J := by
  obtain ⟨hd, -, hl⟩ | ⟨s, a, crash, e, hs, he, hstep⟩ | ⟨hd, -, s, hload, hl⟩ := step_cases J w op
  · refine ⟨hd ▸ h.disk, ?_⟩
    intro s hs
    rcases hl with hl | hl
    · exact h.live s (hl ▸ hs)
    · rw [hl] at hs; cases hs
  · have ht := event?_timely hf hs he
    rw [hstep]
    refine ⟨h.disk.append ht a, ?_⟩
    intro s' hs'
    cases crash with
    | true => cases hs'
    | false =>
      cases hs'
      split
      · exact (h.live s hs).apply ht
      · exact h.live s hs
  · refine ⟨hd ▸ h.disk, ?_⟩
    intro s' hs'
    rw [hl] at hs'
    cases hs'
    obtain ⟨text, ht⟩ := text_of_load hload
    obtain ⟨es, hes, hP, -⟩ := h.disk.load hJ ht
    rw [hload] at hes
    cases hes
    exact timed_replay hP

theorem timed_of_reach {J : SerdeJson} (hJ : J.RejectsTorn) {w : World}
    (h : (history J).Reach Forward w) : w.Timed J :=
  h.inv ⟨Pieces.none J _, fun s hs => by cases hs; exact fun r hr => by cases hr⟩
    (fun _ _ ht hf => ht.step hJ hf)

theorem serverWindowMs_eq {rnd : ℚ → ℚ} {moeThreshold : Bytes32 → Except String Bytes32}
    {r : AiRunRecord} {e : AiLeaderboardEntry} (h : toAiEntry rnd moeThreshold r = some e) :
    e.serverWindowMs = max (r.submittedAtMs.toNat - r.issuedAtMs.toNat) 1 := by
  unfold toAiEntry at h
  obtain ⟨parsed, -, rfl⟩ := Option.map_eq_some_iff.mp h
  show max (satSub r.submittedAtMs r.issuedAtMs).toNat 1 = _
  rw [satSub_toNat]

/-- Clock safety, for histories whose accepted commits are forward in time, with any torn
appends, crashes and loads: each stored run is submitted after its mint and within the window, and
is ranked by what passed in between. -/
theorem runs_inWindow {J : SerdeJson} (hJ : J.RejectsTorn) {w : World}
    (h : (history J).Reach Forward w) {s : AiStore} (hs : w.live = some s) {r : AiRunRecord}
    (hr : r ∈ s.runs) :
    r.InWindow ∧
    ∀ (rnd : ℚ → ℚ) (moeThreshold : Bytes32 → Except String Bytes32) (e : AiLeaderboardEntry),
      toAiEntry rnd moeThreshold r = some e →
      (e.serverWindowMs : ℤ) = max ((r.submittedAtMs.toNat : ℤ) - r.issuedAtMs.toNat) 1 := by
  have hw := (timed_of_reach hJ h).live s hs r hr
  refine ⟨hw, ?_⟩
  intro rnd moeThreshold e he
  rw [serverWindowMs_eq he]
  have := hw.1
  omega

/-- Nonce 7 is minted at 1000 and its run committed at `nowMs`. -/
def mintAndCommit (nowMs : UInt64) : List Op :=
  [.record .written false 7 1000 none,
   .commit .written false ⟨7, .dense, "m1-max", "0.1.0", maxTarget, 900, [3]⟩ nowMs]

theorem runs_inWindow_mintAndCommit :
    ∃ s r, ((history .compact).run World.init (mintAndCommit 2500)).live = some s ∧ r ∈ s.runs ∧
      r.InWindow := by
  have h : (history .compact).Reach Forward
      ((history .compact).run World.init (mintAndCommit 2500)) := by
    refine Kit.Machine.Reach.run .init ⟨trivial, ?_, trivial⟩
    intro s p hs hp
    cases hs
    have hl := (challengeStatus_eq_ok hp).2.1
    cases hl
    decide
  exact ⟨_, _, rfl, List.mem_singleton.mpr rfl,
    (runs_inWindow compact_rejectsTorn h rfl (List.mem_singleton.mpr rfl)).1⟩

/-- The clock steps back between mint and submission: the run is stored with a submission time
before its mint. -/
theorem minted_later_than_submitted :
    ¬ ∀ w, (history .compact).Reach Kit.Machine.free w → ∀ s, w.live = some s →
      ∀ r ∈ s.runs, r.InWindow := by
  intro h
  have hr := Kit.Machine.reach_run_free (history .compact) (mintAndCommit 500)
  have hw := h _ hr _ rfl _ (List.mem_singleton.mpr rfl)
  exact absurd hw.1 (by decide)

end Registry
end Nockmark
