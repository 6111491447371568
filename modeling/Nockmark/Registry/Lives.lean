import Nockmark.Registry.History
import Nockmark.Registry.Server

/-!
# Registry.Lives

The server through its restarts: a process that may stop at any time, and the next one, which
loads the log.

* `mem_runs_replay`, `lookup_replay`, `pending_or_used`: what a replay of the log remembers.
* `Lives`: the handlers of the latest process. A restart stops them, and may come with another
  kernel state and another configuration.
* `issued_of_minting`: a handler that waits for its mint can go on to the reply.
-/

namespace Nockmark
namespace Registry

open Kernel (RegistryState)
open Tock (Bytes32)

/-! ### What a replay remembers -/

def Event.nonce : Event → UInt64
  | .challenge nonce _ => nonce
  | .run r => r.nonce

theorem mem_runs_replay {es : List Event} {r : AiRunRecord} (h : r ∈ (replay es).runs) :
    Event.run r ∈ es := by
  induction es using List.reverseRecOn with
  | nil => cases h
  | append_singleton es e ih =>
    rw [replay_append] at h
    cases e with
    | challenge nonce p => exact List.mem_append_left _ (ih h)
    | run r' =>
      rcases List.mem_append.mp h with h | h
      · exact List.mem_append_left _ (ih h)
      · rw [List.mem_singleton.mp h]
        exact List.mem_append_right _ (List.mem_singleton.mpr rfl)

theorem lookup_replay {es : List Event} {n : UInt64} {p : PendingChallenge}
    (h : (replay es).pending.lookup n = some p) : Event.challenge n p ∈ es := by
  induction es using List.reverseRecOn with
  | nil => cases h
  | append_singleton es e ih =>
    rw [replay_append] at h
    cases e with
    | challenge n' p' =>
      by_cases hn : n = n'
      · subst hn
        rw [show ((replay es).apply (.challenge n p')).pending.lookup n = some p' from
          Finmap.lookup_insert _] at h
        cases h
        exact List.mem_append_right _ (List.mem_singleton.mpr rfl)
      · rw [show ((replay es).apply (.challenge n' p')).pending.lookup n =
          (replay es).pending.lookup n from Finmap.lookup_insert_of_ne _ hn] at h
        exact List.mem_append_left _ (ih h)
    | run r =>
      by_cases hn : n = r.nonce
      · subst hn
        rw [show ((replay es).apply (.run r)).pending.lookup r.nonce = none from
          Finmap.lookup_erase _ _] at h
        cases h
      · rw [show ((replay es).apply (.run r)).pending.lookup n = (replay es).pending.lookup n from
          Finmap.lookup_erase_ne hn] at h
        exact List.mem_append_left _ (ih h)

/-- A challenge stays pending until it is used. -/
theorem pending_or_used {es : List Event} {n : UInt64} {p : PendingChallenge}
    (h : Event.challenge n p ∈ es) :
    n ∈ (replay es).used ∨ ∃ p', (replay es).pending.lookup n = some p' := by
  induction es using List.reverseRecOn with
  | nil => cases h
  | append_singleton es e ih =>
    rw [replay_append]
    by_cases hn : n = e.nonce
    · cases e with
      | challenge n' p' =>
        rw [show n' = n from hn.symm]
        exact .inr ⟨p', Finmap.lookup_insert _⟩
      | run r =>
        rw [hn]
        exact .inl (Finset.mem_insert_self _ _)
    · have hes : Event.challenge n p ∈ es := by
        rcases List.mem_append.mp h with h | h
        · exact h
        · rw [← List.mem_singleton.mp h] at hn
          exact absurd rfl hn
      cases e with
      | challenge n' p' =>
        rcases ih hes with hu | ⟨p'', hp⟩
        · exact .inl hu
        · exact .inr ⟨p'', (Finmap.lookup_insert_of_ne _ hn).trans hp⟩
      | run r =>
        rcases ih hes with hu | ⟨p'', hp⟩
        · exact .inl (Finset.mem_insert_of_mem hu)
        · exact .inr ⟨p'', (Finmap.lookup_erase_ne hn).trans hp⟩

/-! ### Lives of the server -/

/-- The handlers of the latest process, and whether it is up. -/
structure Lives where
  up : Bool
  threads : Kit.Threads Server Phase

inductive Life where
  | turn (id : ℕ) (t : Turn)
  | restart (kernel : RegistryState) (config : Config)

/-- What is left of a handler when its process stops. -/
def Phase.stopped : Phase → Phase
  | .idle => .idle
  | .answered reply => .answered reply
  | _ => .gone

/-- The process stops, and `boot_with_k` loads the store. Kernel and configuration may be any. -/
def Lives.restart (J : SerdeJson) (w : Lives) (kernel : RegistryState) (config : Config) : Lives :=
  let s := w.threads.shared
  match load J s.disk with
  | .ok ai => ⟨true, { s with kernel, ai, config }, fun id => (w.threads.thread id).stopped⟩
  | _ => { w with up := false }

def Lives.step (J : SerdeJson) (env : AiEnv) (zk : ZkEnv) (w : Lives) : Life → Lives
  | .turn id t => if w.up then { w with threads := (handlers J env zk).move w.threads id t } else w
  | .restart kernel config => w.restart J kernel config

def lives (J : SerdeJson) (env : AiEnv) (zk : ZkEnv) (kernel : RegistryState) (config : Config) :
    Kit.Machine Lives Life :=
  ⟨⟨true, .boot kernel config, fun _ => .idle⟩, Lives.step J env zk⟩

/-! ### Single moves -/

theorem step_newChallenge (J : SerdeJson) (env : AiEnv) (zk : ZkEnv) {w : Lives} {id : ℕ}
    (hup : w.up = true) (hid : w.threads.thread id = .idle) (q : Query) :
    (w.step J env zk (.turn id (.newChallenge q))).up = true ∧
    (w.step J env zk (.turn id (.newChallenge q))).threads.shared = w.threads.shared ∧
    (w.step J env zk (.turn id (.newChallenge q))).threads.thread id = newChallenge env q := by
  simp only [Lives.step, hup, if_true, Kit.Program.move_shared, Kit.Program.move_thread_self, hid]
  exact ⟨trivial, rfl, rfl⟩

/-- A handler that waits for its mint gets a nonce, and issues it once it is recorded. -/
theorem issued_of_minting (J : SerdeJson) (env : AiEnv) (zk : ZkEnv) {w : Lives} {id : ℕ}
    {q : Query} {s : Statement} {tier : Option Tier} (hup : w.up = true)
    (hid : w.threads.thread id = .minting q s tier) (hq : isAiTrack q = true) (eny now : Nat)
    (nowMs : UInt64) :
    let nonce := UInt64.ofNat (Kernel.end6 eny)
    let w' := w.step J env zk (.turn id (.mint eny now))
    (w'.step J env zk (.turn id (.record nowMs .written))).threads.shared.issued =
      ⟨q, s, nonce, tier, aiChallengeReply env w.threads.shared.config s nonce tier⟩ ::
        w.threads.shared.issued := by
  simp only [Lives.step, hup, if_true, Kit.Program.move_shared, Kit.Program.move_thread_self, hid,
    handlers, handlerStep, Server.mint, Kernel.mintChallenge_eq, hq, Server.record,
    recordChallenge_ok]

/-- A handler that has answered does nothing more. -/
theorem step_answered (J : SerdeJson) (env : AiEnv) (zk : ZkEnv) {w : Lives} {id : ℕ}
    {reply : Reply} (hid : w.threads.thread id = .answered reply) (t : Turn) :
    w.step J env zk (.turn id t) = w := by
  have hf : (handlers J env zk).Final (w.threads.thread id) := by
    rw [hid]
    exact final_answered J env zk reply
  simp only [Lives.step, Kit.Program.move_of_final hf, ite_self]

theorem step_restart_issued (J : SerdeJson) (env : AiEnv) (zk : ZkEnv) (w : Lives)
    (kernel : RegistryState) (config : Config) :
    (w.step J env zk (.restart kernel config)).threads.shared.issued = w.threads.shared.issued := by
  simp only [Lives.step, Lives.restart]
  split <;> rfl

end Registry
end Nockmark
