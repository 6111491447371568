import Mathlib.Data.List.Nodup
import Nockmark.Registry.Durable
import Nockmark.Registry.Linearizable

/-!
# Registry.Credited

Is a win credited twice, if the process stops and loads its log in between?

The nonce of a recorded run is used in the store of the process that recorded it. The next process
finds it used if it finds the run; and the run is lost if its line went onto a torn one.

* `CleanCommit`: a line that is acknowledged with a run id starts at the beginning of the file or
  after a newline.
* `Server.Credited`: what is acknowledged is stored, and on a line of its own.
* `credited_once`: then no win is credited twice, whatever tears and stops.
* `credited_twice`: a run on a torn line, and the same run again after a restart.
-/

namespace Nockmark
namespace Registry

open Kernel (RegistryState)

/-- The wins that a run was recorded for, each as the nonce and the extranonce or ordinal. -/
def Evidence.credits (ev : Evidence) : List (UInt64 × UInt64) :=
  ev.accepted.map fun a => (ev.run.nonce, a.attempt)

/-- The line of a run that is acknowledged is written at the start of a line. -/
def CleanCommit (J : SerdeJson) (env : AiEnv) (zk : ZkEnv) (w : Lives) (i : Life) : Prop :=
  (w.step J env zk i).threads.shared.evidence ≠ w.threads.shared.evidence →
    EndsLine (w.threads.shared.disk.getD [])

/-- Every acknowledged run is verified, stored, and in the file for good. -/
structure Server.Credited (J : SerdeJson) (env : AiEnv) (s : Server) : Prop where
  pieces : Pieces J (fun _ => True) s.disk
  verified : ∀ ev ∈ s.evidence, ∃ aiK, ev.Verified env aiK
  kept : ∀ ev ∈ s.evidence, Kept J s.disk (.run ev.run)
  present : ∀ ev ∈ s.evidence, Present s.ai (.run ev.run)
  single : (s.evidence.map fun ev => ev.run.nonce).Nodup

theorem Evidence.Verified.credits_nodup {env : AiEnv} {aiK : UInt64} {ev : Evidence}
    (h : ev.Verified env aiK) : ev.credits.Nodup := by
  have hattempts : (ev.accepted.map Accepted.attempt).Nodup := h.extranonces ▸ h.distinct
  have hcredits : ev.credits = (ev.accepted.map Accepted.attempt).map (Prod.mk ev.run.nonce) := by
    rw [List.map_map]
    rfl
  rw [hcredits]
  exact hattempts.map (Prod.mk_right_injective _)

theorem Server.Credited.credits_nodup {J : SerdeJson} {env : AiEnv} {s : Server}
    (h : s.Credited J env) : (s.evidence.flatMap Evidence.credits).Nodup := by
  refine List.nodup_flatMap.mpr ⟨?_, ?_⟩
  · intro ev hev
    obtain ⟨aiK, hv⟩ := h.verified ev hev
    exact hv.credits_nodup
  · refine (List.pairwise_map.mp h.single).imp ?_
    intro ev ev' hne c hc hc'
    obtain ⟨a, -, rfl⟩ := List.mem_map.mp hc
    obtain ⟨a', -, heq⟩ := List.mem_map.mp hc'
    exact hne (congrArg Prod.fst heq).symm

/-! ### Every step -/

section Step

variable {J : SerdeJson} {env : AiEnv} {id : ℕ} {s : Server} {t : Turn} {p : Phase} {disk : Disk}

theorem Wrote.pieces (hw : Wrote J s p disk) (h : Pieces J (fun _ => True) s.disk) :
    Pieces J (fun _ => True) disk := by
  cases hw with
  | nothing => exact h
  | challenge a nonce pending => exact h.append trivial a
  | run hp a pending nowMs => exact h.append trivial a

theorem Wrote.kept (hw : Wrote J s p disk) {e : Event} (h : Kept J s.disk e) : Kept J disk e := by
  cases hw with
  | nothing => exact h
  | challenge a nonce pending => exact h.append a _
  | run hp a pending nowMs => exact h.append a _

theorem Moved.credited {r : Server × Phase} (hm : Moved J env id s t p r)
    (hw : Wrote J s p r.1.disk) (hs : s.Credited J env) (hp : p.Sound env s.config.aiK)
    (hclean : r.1.evidence ≠ s.evidence → EndsLine (s.disk.getD [])) : r.1.Credited J env := by
  have hpieces := hw.pieces hs.pieces
  cases hm with
  | quiet => exact ⟨hpieces, hs.verified, fun ev hev => hw.kept (hs.kept ev hev), hs.present,
      hs.single⟩
  | minted => exact ⟨hpieces, hs.verified, fun ev hev => hw.kept (hs.kept ev hev), hs.present,
      hs.single⟩
  | recorded =>
    refine ⟨hpieces, hs.verified, fun ev hev => hw.kept (hs.kept ev hev), ?_, hs.single⟩
    exact fun ev hev => (hs.present ev hev).apply _
  | @committed req target accepted nowMs pending run hc hrun =>
    have hends : EndsLine (s.disk.getD []) := hclean (List.cons_ne_self _ _)
    have hv : (⟨id, req, run, accepted⟩ : Evidence).Verified env s.config.aiK :=
      hrun ▸ verified_of_sound s.config.aiK_ne_zero hp id s.ai pending nowMs
    constructor
    case pieces => exact hpieces
    case verified => exact List.forall_mem_cons.mpr ⟨⟨_, hv⟩, hs.verified⟩
    case kept =>
      refine List.forall_mem_cons.mpr ⟨⟨s.disk.getD [], [], ?_, hends⟩, ?_⟩
      · simp [append]
      · exact fun ev hev => hw.kept (hs.kept ev hev)
    case present =>
      refine List.forall_mem_cons.mpr ⟨present_apply_self s.ai (.run run), ?_⟩
      exact fun ev hev => (hs.present ev hev).apply _
    case single =>
      refine List.nodup_cons.mpr ⟨?_, hs.single⟩
      intro hmem
      obtain ⟨ev, hev, hn⟩ := List.mem_map.mp hmem
      have hused : ev.run.nonce ∈ s.ai.used := nonceUsed_iff.mp (hs.present ev hev).2
      rw [show ev.run.nonce = run.nonce from hn, hrun] at hused
      exact (challengeStatus_eq_ok hc).1 hused

end Step

section Lives

variable {J : SerdeJson} {env : AiEnv} {zk : ZkEnv} {w : Lives}

/-- The invariant, up or down. -/
def Lives.Credited (J : SerdeJson) (env : AiEnv) (w : Lives) : Prop :=
  Kit.Program.Holds (Server.Credited J env) (fun _ s p => p.Sound env s.config.aiK) w.threads

/-- The next process finds every acknowledged run. -/
theorem Lives.Credited.restart (hJ : J.RejectsTorn) (h : w.Credited J env) (kernel : RegistryState)
    (config : Config) : (w.restart J kernel config).Credited J env := by
  simp only [Lives.restart]
  split
  · rename_i ai hload
    obtain ⟨text, ht⟩ := text_of_load hload
    obtain ⟨es, hes, -, hmem⟩ := h.shared.pieces.load hJ ht
    rw [hload] at hes
    cases hes
    refine ⟨⟨h.shared.pieces, h.shared.verified, h.shared.kept, ?_, h.shared.single⟩,
      fun id => Phase.stopped_sound env _ _⟩
    intro ev hev
    exact present_replay (hmem _ ((h.shared.kept ev hev).mem_lines ht))
  · exact h

theorem Lives.Credited.turn (h : w.Credited J env) {id : ℕ} {t : Turn}
    (hclean : ((handlers J env zk).move w.threads id t).shared.evidence ≠
      w.threads.shared.evidence → EndsLine (w.threads.shared.disk.getD [])) :
    Kit.Program.Holds (Server.Credited J env) (fun _ s p => p.Sound env s.config.aiK)
      ((handlers J env zk).move w.threads id t) := by
  have hm := moved_step J env zk id w.threads.shared (w.threads.thread id) t
  have hw := (handlerMove_step J env zk id w.threads.shared (w.threads.thread id) t).wrote
  refine h.move ⟨hm.credited hw h.shared (h.thread id) hclean, hm.phase_sound (h.thread id)⟩ ?_
  intro j _ hj
  show Phase.Sound env (handlerStep J env zk id _ _ t).1.config.aiK _
  rw [hm.config]
  exact hj

theorem credited_of_reach (hJ : J.RejectsTorn) {kernel : RegistryState} {config : Config}
    (h : (lives J env zk kernel config).Reach (CleanCommit J env zk) w) : w.Credited J env := by
  refine h.inv ?_ ?_
  · exact ⟨⟨Pieces.none J _, nofun, nofun, nofun, .nil⟩, fun _ => trivial⟩
  · intro w i hw hclean
    cases i with
    | restart kernel config => exact hw.restart hJ kernel config
    | turn id t =>
      show Lives.Credited J env (if w.up then _ else w)
      split
      · rename_i hup
        have hstep : w.step J env zk (.turn id t) =
            { w with threads := (handlers J env zk).move w.threads id t } := if_pos hup
        rw [CleanCommit, hstep] at hclean
        exact hw.turn hclean
      · exact hw

end Lives

/-! ### Every history -/

/-- Through any number of restarts, with appends that stop anywhere, handlers in any interleaving
and nonces that are minted again: if the line of each acknowledged run starts a line, no nonce is
used twice and no win is credited twice, and each of these runs is verified, on the board, and its
nonce used for good. -/
theorem credited_once {J : SerdeJson} (hJ : J.RejectsTorn) {env : AiEnv} {zk : ZkEnv}
    {kernel : RegistryState} {config : Config} {w : Lives}
    (h : (lives J env zk kernel config).Reach (CleanCommit J env zk) w) :
    let s := w.threads.shared
    (s.evidence.map fun ev => ev.run.nonce).Nodup ∧ (s.evidence.flatMap Evidence.credits).Nodup ∧
      ∀ ev ∈ s.evidence, (∃ aiK, ev.Verified env aiK) ∧ ev.run ∈ s.ai.runs ∧
        ∀ nowMs, challengeStatus s.ai ev.run.nonce nowMs = .error "nonce-used" := by
  intro s
  have hs : s.Credited J env := (credited_of_reach hJ h).shared
  refine ⟨hs.single, hs.credits_nodup, ?_⟩
  intro ev hev
  exact ⟨hs.verified ev hev, hs.present ev hev⟩

/-! ### A torn mint before the run, and after it -/

theorem evidence_restart (J : SerdeJson) (env : AiEnv) (zk : ZkEnv) (w : Lives)
    (kernel : RegistryState) (config : Config) :
    (w.step J env zk (.restart kernel config)).threads.shared.evidence =
      w.threads.shared.evidence := by
  simp only [Lives.step, Lives.restart]
  split <;> rfl

theorem evidence_turn (J : SerdeJson) (env : AiEnv) (zk : ZkEnv) (w : Lives) (id : ℕ) {t : Turn}
    (ht : ∀ nowMs a ioError, t ≠ .commit nowMs a ioError) :
    (w.step J env zk (.turn id t)).threads.shared.evidence = w.threads.shared.evidence := by
  simp only [Lives.step]
  split
  · have hm := handlerMove_step J env zk id w.threads.shared (w.threads.thread id) t
    rw [Kit.Program.move_shared]
    show (handlerStep J env zk id w.threads.shared (w.threads.thread id) t).1.evidence = _
    generalize handlerStep J env zk id w.threads.shared (w.threads.thread id) t = r at hm
    generalize w.threads.thread id = p at hm
    cases hm with
    | mint => simp only [Server.mint]; split <;> rfl
    | record => simp only [Server.record]; split <;> rfl
    | poke => simp only [Server.poke]; split <;> rfl
    | commit => exact absurd rfl (ht _ _ _)
    | _ => rfl
  · rfl

theorem cleanCommit_of_evidence {J : SerdeJson} {env : AiEnv} {zk : ZkEnv} {w : Lives} {i : Life}
    (h : (w.step J env zk i).threads.shared.evidence = w.threads.shared.evidence) :
    CleanCommit J env zk w i :=
  fun hne => absurd h hne

/-- The run of `moeLife`, and then a mint that stops after five bytes. -/
def tornAfter : List Life :=
  moeLife ++ [.turn 2 (.newChallenge untieredQuery), .turn 2 (.mint 8 0),
    .turn 2 (.record 4000 (.failed (some 5)))]

def tornAfterReloaded : Lives :=
  (tornLives tornAfter).step .compact scaling (provesOnly "7")
    (.restart Kernel.init (oneWin (.ofNat 32 1)))

theorem reach_tornAfterReloaded : (lives .compact scaling (provesOnly "7") Kernel.init
    (oneWin (.ofNat 32 1))).Reach (CleanCommit .compact scaling (provesOnly "7"))
    tornAfterReloaded := by
  have hturn : ∀ (w : Lives) (id : ℕ) (t : Turn), (∀ nowMs a ioError, t ≠ .commit nowMs a ioError) →
      CleanCommit .compact scaling (provesOnly "7") w (.turn id t) :=
    fun w id t ht => cleanCommit_of_evidence (evidence_turn _ _ _ w id ht)
  have h : (lives .compact scaling (provesOnly "7") Kernel.init (oneWin (.ofNat 32 1))).Reach
      (CleanCommit .compact scaling (provesOnly "7")) (tornLives tornAfter) := by
    refine Kit.Machine.Reach.run .init ⟨?_, ?_, ?_, ?_, ?_, ?_, ?_, ?_, ?_, ?_, ?_, trivial⟩
    case refine_8 =>
      -- the commit, after the line of the challenge
      exact fun _ => .inr ⟨Kit.Utf8.encode (SerdeJson.compact.print
        (Event.challenge 7 ⟨1000, none⟩).value), rfl⟩
    all_goals exact hturn _ _ _ (by simp)
  rw [tornAfterReloaded]
  exact reach_step h (cleanCommit_of_evidence (evidence_restart _ _ _ _ _ _))

/-- The next process knows the run. -/
theorem credited_once_tornAfter :
    ∃ ev ∈ tornAfterReloaded.threads.shared.evidence, ev.credits = [(7, 0)] ∧
      ev.run ∈ tornAfterReloaded.threads.shared.ai.runs ∧
      challengeStatus tornAfterReloaded.threads.shared.ai ev.run.nonce 5000 =
        .error "nonce-used" := by
  have hcredits : ∃ ev ∈ (tornLives tornAfter).threads.shared.evidence, ev.credits = [(7, 0)] := by
    decide +kernel
  have hevidence : tornAfterReloaded.threads.shared.evidence =
      (tornLives tornAfter).threads.shared.evidence := by
    rw [tornAfterReloaded, evidence_restart]
  rw [← hevidence] at hcredits
  obtain ⟨ev, hev, h⟩ := hcredits
  obtain ⟨-, hruns, hused⟩ :=
    (credited_once compact_rejectsTorn reach_tornAfterReloaded).2.2 ev hev
  exact ⟨ev, hev, h, hruns, hused 5000⟩

/-- A run on the line of a torn mint is acknowledged, and lost. -/
def tornBefore : List Life :=
  tornStart ++ [.turn 2 (.submit untieredQuery moeBody), .turn 2 (.check 2000),
    .turn 2 (.context none), .turn 2 (.verify none), .turn 2 (.commit 3000 .written "")]

theorem disk_tornBefore : (tornLives tornBefore).threads.shared.disk =
    append .compact .written (tornLives tornStart).threads.shared.disk
      (.run (newRun (replay [.challenge 7 ⟨1000, none⟩])
        (overtakenRequest.submission (.ofNat 32 1)) ⟨1000, none⟩ 3000)) := rfl

/-- The next process gets it again. -/
def again : List Life :=
  .restart Kernel.init (oneWin (.ofNat 32 1)) :: [.turn 3 (.submit untieredQuery moeBody),
    .turn 3 (.check 3500), .turn 3 (.context none), .turn 3 (.verify none),
    .turn 3 (.commit 4000 .written "")]

/-- A line that is not clean costs it: the same win twice. -/
theorem credited_twice : (tornLives (tornBefore ++ again)).threads.shared.evidence.flatMap
    Evidence.credits = [(7, 0), (7, 0)] := by
  have htext : ∃ text, (tornLives tornBefore).threads.shared.disk.getD [] =
      Kit.Utf8.encode text := by
    rw [disk_tornBefore]
    exact text_append text_tornStart nofun
  have hlog : (tornTrack.run tornTrack.init ((tornOperations tornBefore).map
      Prod.snd)).log.readable = [.challenge 7 ⟨1000, none⟩] := by decide +kernel
  rw [tornLives, again, run_restart compact_rejectsTorn (by decide +kernel) htext hlog]
  decide +kernel

end Registry
end Nockmark
