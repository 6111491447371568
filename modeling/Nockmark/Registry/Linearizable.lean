import Nockmark.Registry.Atomic
import Nockmark.Registry.Durable

/-!
# Registry.Linearizable

The server through its restarts refines the track whose operations are done at once.

* `Lives.At`: the running store and the file, as the track has them.
* `linear_life`: what any step of the server does to the track.
* `ai_track_linearizable`: in every history, stops and torn appends included, store and answers are
  those of the operations done one after the other.
-/

namespace Nockmark
namespace Registry

open Kernel (RegistryState)
open Kit.Journal (Stands)
open Tock (Bytes32)

/-! ### Every step -/

/-- The track stands for the server: its store is the running one, and its journal the file. -/
structure Lives.At (J : SerdeJson) (env : AiEnv) (w : Lives) (k : AiTrack) : Prop where
  config : k.config = w.threads.shared.config
  ai : k.ai = w.threads.shared.ai
  stands : Stands J.format (w.threads.shared.disk.getD []) k.log
  known : Kit.Program.Holds Server.Known (fun id s p => p.Known id s) w.threads
  sound : ∀ id, (w.threads.thread id).Sound env w.threads.shared.config.aiK
  minted : ∀ e ∈ k.log.readable, e.nonce ∈ w.threads.shared.minted.map Prod.snd

/-- What is appended has been minted. -/
theorem point_minted {env : AiEnv} {id : ℕ} {s : Server} {p : Phase} {t : Turn} {o : AiOp}
    (hs : s.Known) (hp : p.Known id s) (h : point env s p t = some o) {a : Append} {e : Event}
    (he : (o.perform env s.config s.ai).1 = some (a, e)) : e.nonce ∈ s.minted.map Prod.snd := by
  unfold point at h
  split at h
  · cases h
    cases he
    exact List.mem_map_of_mem (f := Prod.snd) hp.1
  · split at h
    · rename_i r hr
      cases h
      simp only [AiOp.perform, hr] at he
      cases he
    · cases h
  · cases h
    simp only [AiOp.perform] at he
    split at he
    · cases he
    · cases he
      exact hs.minted _ hp.1
  · cases h

theorem knows_replay {es : List Event} {nonce : UInt64} (h : (replay es).Knows nonce) :
    ∃ e ∈ es, e.nonce = nonce := by
  induction es using List.reverseRecOn with
  | nil =>
    rcases h with hu | hp
    · cases hu
    · cases hp
  | append_singleton es e ih =>
    rw [replay_append] at h
    have hlast : e ∈ es ++ [e] := List.mem_append_right _ (List.mem_singleton.mpr rfl)
    by_cases hn : nonce = e.nonce
    · exact ⟨e, hlast, hn.symm⟩
    · have hold : (replay es).Knows nonce := by
        cases e with
        | challenge n p => exact (knows_challenge.mp h).resolve_left hn
        | run r =>
          rcases h with hu | hp
          · exact .inl ((Finset.mem_insert.mp hu).resolve_left hn)
          · exact .inr (Finmap.mem_erase.mp hp).2
      obtain ⟨e', he', heq⟩ := ih hold
      exact ⟨e', List.mem_append_left _ he', heq⟩

section Steps

variable {J : SerdeJson} {env : AiEnv} {zk : ZkEnv} {w : Lives} {k : AiTrack}

/-- A turn that does `ev` to store and file. -/
theorem Lives.At.turn (hJ : J.RejectsTorn) (h : w.At J env k) {id : ℕ} {t : Turn}
    {ev : Option (Append × Event)}
    (hd : (((handlers J env zk).move w.threads id t).shared.minted.map Prod.snd).Nodup)
    (hev : (((handlers J env zk).move w.threads id t).shared.ai,
        ((handlers J env zk).move w.threads id t).shared.disk) =
      stored J w.threads.shared.ai w.threads.shared.disk ev)
    (hminted : ∀ a e, ev = some (a, e) → e.nonce ∈ w.threads.shared.minted.map Prod.snd) :
    Lives.At J env { w with threads := (handlers J env zk).move w.threads id t }
      (k.append J ev) := by
  have hm := moved_step J env zk id w.threads.shared (w.threads.thread id) t
  have hconfig : ((handlers J env zk).move w.threads id t).shared.config =
      w.threads.shared.config := hm.config
  have hsuffix : w.threads.shared.minted <:+
      ((handlers J env zk).move w.threads id t).shared.minted := hm.minted_suffix
  have hknown : Kit.Program.Holds Server.Known (fun id s p => p.Known id s)
      ((handlers J env zk).move w.threads id t) :=
    h.known.move (hm.known hd h.known.shared (h.known.thread id)) fun j hj hp =>
      hm.known_other h.known.shared (h.known.thread id) hj hp
  have hsound : ∀ j, (((handlers J env zk).move w.threads id t).thread j).Sound env
      ((handlers J env zk).move w.threads id t).shared.config.aiK := by
    intro j
    by_cases hj : j = id
    · subst hj
      rw [Kit.Program.move_thread_self]
      exact hm.phase_sound (h.sound j)
    · rw [Kit.Program.move_thread_ne _ hj, hconfig]
      exact h.sound j
  cases ev with
  | none =>
    obtain ⟨hai, hdisk⟩ := Prod.ext_iff.mp hev
    refine ⟨h.config.trans hconfig.symm, h.ai.trans hai.symm, ?_, hknown, hsound, ?_⟩
    · show Stands J.format (((handlers J env zk).move w.threads id t).shared.disk.getD []) k.log
      rw [show ((handlers J env zk).move w.threads id t).shared.disk = w.threads.shared.disk from
        hdisk]
      exact h.stands
    · intro e he
      exact (hsuffix.map Prod.snd).subset (h.minted e he)
  | some ae =>
    obtain ⟨a, e⟩ := ae
    obtain ⟨hai, hdisk⟩ := Prod.ext_iff.mp hev
    refine ⟨h.config.trans hconfig.symm, ?_, ?_, hknown, hsound, ?_⟩
    · rw [AiTrack.append, h.ai]
      exact hai.symm
    · show Stands J.format (((handlers J env zk).move w.threads id t).shared.disk.getD []) _
      rw [show ((handlers J env zk).move w.threads id t).shared.disk =
        append J a w.threads.shared.disk e from hdisk]
      exact Stands.append hJ h.stands a e
    · intro e' he'
      have hmem := (Kit.Journal.readable_write J.format k.log e (a.bytes J e)).subset he'
      refine (hsuffix.map Prod.snd).subset ?_
      rcases List.mem_append.mp hmem with hmem | hmem
      · exact h.minted e' hmem
      · rw [List.mem_singleton.mp hmem]
        exact hminted a e rfl

/-- The next process has what its predecessors left readable. -/
theorem Lives.At.restart (hJ : J.RejectsTorn) (h : w.At J env k) (kernel : RegistryState)
    (config : Config) {ai : AiStore} (hl : load J w.threads.shared.disk = .ok ai) :
    (w.restart J kernel config).At J env (k.step J env (.restart config)) := by
  obtain ⟨text, ht⟩ := text_of_load hl
  have hload := load_of_stands hJ h.stands ht
  rw [hl] at hload
  cases hload
  simp only [Lives.restart, hl]
  have hknown : ∀ nonce, (replay k.log.readable).Knows nonce →
      nonce ∈ w.threads.shared.minted.map Prod.snd := by
    intro nonce hn
    obtain ⟨e, he, heq⟩ := knows_replay hn
    exact heq ▸ h.minted e he
  refine ⟨rfl, rfl, h.stands, ⟨⟨h.known.shared.distinct, hknown⟩, ?_⟩, ?_, h.minted⟩
  · intro id
    show (w.threads.thread id).stopped.Known id _
    cases w.threads.thread id <;> trivial
  · exact fun id => Phase.stopped_sound env _ _

theorem Phase.Owes.stopped {r : Option Reply} {p : Phase} (h : p.Owes env r) :
    p.stopped.Owes env r := by
  cases p with
  | answered => exact h
  | preparing => trivial
  | verifying => trivial
  | gone => trivial
  | _ => cases h

section Life

variable {kernel₀ : RegistryState} {config₀ : Config}

theorem linear_turn (hJ : J.RejectsTorn) (h : w.At J env k) (hup : w.up = true) {id : ℕ} {t : Turn}
    (hd : ((w.step J env zk (.turn id t)).threads.shared.minted.map Prod.snd).Nodup) :
    Kit.Linear (lives J env zk kernel₀ config₀) (aiView J env) (aiTrack J env config₀)
      (Lives.At J env) (fun _ r p => p.Owes env r) w (.turn id t) := by
  have hstep : (lives J env zk kernel₀ config₀).step w (.turn id t) =
      { w with threads := (handlers J env zk).move w.threads id t } := if_pos hup
  have hpoint : (aiView J env).point w (.turn id t) =
      (point env w.threads.shared (w.threads.thread id) t).map fun o => (some id, .op o) :=
    if_pos hup
  have hd : (((handlers J env zk).move w.threads id t).shared.minted.map Prod.snd).Nodup := by
    rw [show w.step J env zk (.turn id t) = _ from hstep] at hd
    exact hd
  have hl := @linear_handler J env zk id _ _ (h.sound id) (h.known.thread id) t
  constructor
  case quiet =>
    intro a ha hno
    rw [hpoint, Option.map_eq_none_iff] at hno
    rw [hstep]
    exact @Lives.At.turn J env zk w a hJ ha id t none hd (hl.quiet hno) nofun
  case done =>
    intro a who o ha ho
    rw [hpoint, Option.map_eq_some_iff] at ho
    obtain ⟨op, hop, heq⟩ := ho
    cases heq
    rw [hstep]
    show Lives.At J env _ (a.append J (op.perform env a.config a.ai).1)
    rw [ha.config, ha.ai]
    exact ha.turn hJ hd (hl.done op hop).1 fun _ _ he =>
      point_minted ha.known.shared (ha.known.thread id) hop he
  case replies =>
    intro a j o ha ho
    rw [hpoint, Option.map_eq_some_iff] at ho
    obtain ⟨op, hop, heq⟩ := ho
    cases heq
    rw [hstep]
    show (((handlers J env zk).move w.threads id t).thread id).Owes env
      (op.perform env a.config a.ai).2
    rw [ha.config, ha.ai, Kit.Program.move_thread_self]
    exact (hl.done op hop).2
  case owes =>
    intro j o r hr
    rw [hstep, hpoint]
    show _ ∧ (((handlers J env zk).move w.threads id t).thread j).Owes env r
    by_cases hj : j = id
    · subst hj
      obtain ⟨hno, hnext⟩ := hl.owes r hr
      rw [hno, Kit.Program.move_thread_self]
      exact ⟨nofun, hnext⟩
    · rw [Kit.Program.move_thread_ne _ hj]
      refine ⟨?_, hr⟩
      intro o' ho'
      obtain ⟨op, -, heq⟩ := Option.map_eq_some_iff.mp ho'
      cases heq
      exact hj rfl

/-- A step that the track does not see. -/
theorem linear_same {i : Life} (hpoint : (aiView J env).point w i = none)
    (hstep : (w.step J env zk i).threads = w.threads) :
    Kit.Linear (lives J env zk kernel₀ config₀) (aiView J env) (aiTrack J env config₀)
      (Lives.At J env) (fun _ r p => p.Owes env r) w i := by
  have hthreads : ((lives J env zk kernel₀ config₀).step w i).threads = w.threads := hstep
  constructor
  case quiet =>
    rintro a ⟨hconfig, hai, hstands, hknown, hsound, hminted⟩ -
    constructor <;> rw [hthreads] <;> assumption
  case done =>
    intro a who o _ ho
    cases hpoint.symm.trans ho
  case replies =>
    intro a id o _ ho
    cases hpoint.symm.trans ho
  case owes =>
    intro id o r hr
    rw [hpoint]
    show _ ∧ (((lives J env zk kernel₀ config₀).step w i).threads.thread id).Owes env r
    rw [hthreads]
    exact ⟨nofun, hr⟩

theorem linear_restart (hJ : J.RejectsTorn) {ai : AiStore}
    (hl : load J w.threads.shared.disk = .ok ai) (kernel : RegistryState) (config : Config) :
    Kit.Linear (lives J env zk kernel₀ config₀) (aiView J env) (aiTrack J env config₀)
      (Lives.At J env) (fun _ r p => p.Owes env r) w (.restart kernel config) := by
  have hpoint : (aiView J env).point w (.restart kernel config) = some (none, .restart config) := by
    simp only [aiView, hl]
  constructor
  case quiet =>
    intro a _ hno
    cases hno.symm.trans hpoint
  case done =>
    intro a who o ha ho
    cases hpoint.symm.trans ho
    exact ha.restart hJ kernel config hl
  case replies =>
    intro a id o _ ho
    cases hpoint.symm.trans ho
  case owes =>
    intro id o r hr
    rw [hpoint]
    refine ⟨nofun, ?_⟩
    show ((w.restart J kernel config).threads.thread id).Owes env r
    simp only [Lives.restart, hl]
    exact hr.stopped

theorem linear_life (hJ : J.RejectsTorn) (h : w.At J env k) {i : Life}
    (hd : ((w.step J env zk i).threads.shared.minted.map Prod.snd).Nodup) :
    Kit.Linear (lives J env zk kernel₀ config₀) (aiView J env) (aiTrack J env config₀)
      (Lives.At J env) (fun _ r p => p.Owes env r) w i := by
  cases i with
  | turn id t =>
    cases hup : w.up with
    | true => exact linear_turn hJ h hup hd
    | false =>
      refine linear_same ?_ ?_
      · simp only [aiView, hup]
        rfl
      · simp only [Lives.step, hup]
        rfl
  | restart kernel config =>
    cases hl : load J w.threads.shared.disk with
    | ok ai => exact linear_restart hJ hl kernel config
    | _ =>
      refine linear_same ?_ ?_
      · simp only [aiView, hl]
      · simp only [Lives.step, Lives.restart, hl]

end Life

end Steps

/-! ### What a handler is about to do -/

/-- The call that a handler is about to do. -/
def Phase.call? : Phase → Option AiCall
  | .recording q statement tier nonce => some (.challenge q statement tier nonce)
  | .checking req => some (.run req)
  | _ => none

/-- The handler has yet to do `c`, or fails. -/
def Phase.Awaits (env : AiEnv) (c : AiCall) : Phase → Prop
  | .recording q statement tier nonce => .challenge q statement tier nonce = c
  | .checking req => .run req = c
  | .preparing req target =>
    .run req = c ∧ verifyWins env req target 0 (req.sub.wins.zip req.blobs) = none
  | .verifying req target rest accepted =>
    .run req = c ∧ verifyWins env req target accepted.length rest = none
  | .answered reply => reply.status = 500
  | .gone => True
  | _ => False

theorem Phase.awaits_of_call {env : AiEnv} {c : AiCall} {p : Phase} (h : p.call? = some c) :
    p.Awaits env c := by
  cases p with
  | recording => exact Option.some.inj h
  | checking => exact Option.some.inj h
  | _ => cases h

theorem point_call {env : AiEnv} {c : AiCall} {s : Server} {p : Phase} {t : Turn} {o : AiOp}
    (hp : p.Awaits env c) (h : point env s p t = some o) : o.call = c := by
  unfold point at h
  split at h
  · cases h
    exact hp
  · split at h
    · cases h
      exact hp
    · cases h
  · cases h
    exact hp.1
  · cases h

theorem screen_ok {env : AiEnv} {cfg : Config} {ai : AiStore} {req : AiRequest} {nowMs : UInt64}
    {p : PendingChallenge} (h : screen env cfg ai req nowMs = .ok p) :
    challengeStatus ai req.nonce nowMs = .ok p ∧
      verifyWins env req (p.target.getD (cfg.target req.statement)) 0
        (req.sub.wins.zip req.blobs) = none := by
  simp only [screen] at h
  split at h
  · cases h
  rename_i p' hc
  split at h
  · cases h
  rename_i hv
  cases h
  exact ⟨hc, hv⟩

theorem awaits_handler {J : SerdeJson} {env : AiEnv} {zk : ZkEnv} {c : AiCall} {id : ℕ} {s : Server}
    {p : Phase} {t : Turn} (hp : p.Awaits env c) (hpoint : point env s p t = none) :
    (handlerStep J env zk id s p t).2.Awaits env c := by
  have hm := handlerMove_step J env zk id s p t
  generalize handlerStep J env zk id s p t = r at hm
  cases hm with
  | stay => exact hp
  | hangUp => trivial
  | newChallenge => cases hp
  | submit => cases hp
  | mint => cases hp
  | record => cases hpoint
  | poke => cases hp
  | check req nowMs =>
    simp only [point] at hpoint
    split at hpoint
    · cases hpoint
    rename_i pending hs
    obtain ⟨hc, hv⟩ := screen_ok hs
    simp only [check, hc]
    exact ⟨hp, hv⟩
  | context req target error =>
    cases error with
    | none => exact hp
    | some e => rfl
  | verify req target win blob rest accepted joinError =>
    obtain ⟨hc, hv⟩ := hp
    simp only [verifyWin]
    cases joinError with
    | some e => rfl
    | none =>
      rw [verifyWins] at hv
      cases hok : req.statement.verify env (challenge32 env.blake3 req.nonce) target
          win.extranonce blob with
      | error e =>
        rw [hok] at hv
        cases hv
      | ok u =>
        rw [hok] at hv
        exact ⟨hc, by rw [List.length_append]; exact hv⟩
  | commit => cases hpoint

theorem Phase.Awaits.stopped {env : AiEnv} {c : AiCall} {p : Phase} (h : p.Awaits env c) :
    p.stopped.Awaits env c := by
  cases p with
  | answered => exact h
  | idle => cases h
  | _ => trivial

theorem awaits_life (J : SerdeJson) (env : AiEnv) (zk : ZkEnv) (kernel : RegistryState)
    (config : Config) (c : AiCall) (w : Lives) (i : Life) :
    Kit.Awaits (lives J env zk kernel config) (aiView J env) (∃ o, · = .op o ∧ o.call = c)
      (·.Awaits env c) w i := by
  intro id hf
  show (_ → ((w.step J env zk i).threads.thread id).Awaits env c) ∧ _
  cases i with
  | turn j t =>
    cases hup : w.up with
    | false =>
      simp only [Lives.step, aiView, hup]
      refine ⟨fun _ => hf, ?_⟩
      intro o ho
      cases ho
    | true =>
      simp only [Lives.step, aiView, hup, if_true]
      by_cases hj : id = j
      · subst hj
        rw [Kit.Program.move_thread_self]
        constructor
        · intro hno
          refine awaits_handler hf ?_
          cases hp : point env w.threads.shared (w.threads.thread id) t with
          | none => rfl
          | some op => exact absurd (by rw [hp]; rfl) (hno (.op op))
        · intro o ho
          obtain ⟨op, hop, heq⟩ := Option.map_eq_some_iff.mp ho
          cases heq
          exact ⟨op, rfl, point_call hf hop⟩
      · rw [Kit.Program.move_thread_ne _ hj]
        refine ⟨fun _ => hf, ?_⟩
        intro o ho
        obtain ⟨op, -, heq⟩ := Option.map_eq_some_iff.mp ho
        cases heq
        exact absurd rfl hj
  | restart kernel config =>
    cases hl : load J w.threads.shared.disk with
    | ok ai =>
      simp only [Lives.step, Lives.restart, aiView, hl]
      refine ⟨fun _ => hf.stopped, ?_⟩
      intro o ho
      cases ho
    | _ =>
      simp only [Lives.step, Lives.restart, aiView, hl]
      refine ⟨fun _ => hf, ?_⟩
      intro o ho
      cases ho

/-! ### Every history -/

/-- The operations of a history, in the order of their points. -/
def operations (J : SerdeJson) (env : AiEnv) (zk : ZkEnv) (kernel : RegistryState) (config : Config)
    (history : List Life) : List (Option ℕ × TrackOp) :=
  (aiView J env).points (lives J env zk kernel config) (lives J env zk kernel config).init history

section Histories

variable {J : SerdeJson} {env : AiEnv} {zk : ZkEnv} {kernel : RegistryState} {config : Config}
  {w : Lives}

theorem minted_life_suffix (w : Lives) (i : Life) :
    w.threads.shared.minted <:+ (w.step J env zk i).threads.shared.minted := by
  cases i with
  | turn id t =>
    simp only [Lives.step]
    split
    · exact (moved_step J env zk id _ _ t).minted_suffix
    · exact List.suffix_rfl
  | restart kernel config =>
    simp only [Lives.step, Lives.restart]
    split <;> exact List.suffix_rfl

theorem minted_lives_suffix (w : Lives) (history : List Life) :
    w.threads.shared.minted <:+
      ((lives J env zk kernel config).run w history).threads.shared.minted := by
  induction history generalizing w with
  | nil => exact List.suffix_rfl
  | cons i history ih => exact (minted_life_suffix w i).trans (ih _)

theorem nodup_before {history : List Life}
    (hd : (((lives J env zk kernel config).run w history).threads.shared.minted.map
      Prod.snd).Nodup) : (w.threads.shared.minted.map Prod.snd).Nodup :=
  hd.sublist ((minted_lives_suffix w history).map Prod.snd).sublist

theorem allLinear_lives (hJ : J.RejectsTorn) {k : AiTrack} (h : w.At J env k) {history : List Life}
    (hd : (((lives J env zk kernel config).run w history).threads.shared.minted.map
      Prod.snd).Nodup) :
    Kit.AllLinear (lives J env zk kernel config) (aiView J env) (aiTrack J env config)
      (Lives.At J env) (fun _ r p => p.Owes env r) w history := by
  induction history generalizing w k with
  | nil => trivial
  | cons i history ih =>
    have hstep : ((w.step J env zk i).threads.shared.minted.map Prod.snd).Nodup := nodup_before hd
    have hl : Kit.Linear (lives J env zk kernel config) (aiView J env) (aiTrack J env config)
        (Lives.At J env) (fun _ r p => p.Owes env r) w i :=
      linear_life hJ h hstep
    exact ⟨hl, ih (hl.related h) hd⟩

theorem at_init : (lives J env zk kernel config).init.At J env (aiTrack J env config).init := by
  refine ⟨rfl, rfl, Kit.Journal.stands_empty _, ⟨⟨.nil, ?_⟩, fun _ => trivial⟩, fun _ => trivial,
    nofun⟩
  rintro nonce (hu | hp)
  · cases hu
  · cases hp

theorem at_run (hJ : J.RejectsTorn) {history : List Life}
    (hd : (((lives J env zk kernel config).run (lives J env zk kernel config).init
      history).threads.shared.minted.map Prod.snd).Nodup) :
    ((lives J env zk kernel config).run (lives J env zk kernel config).init history).At J env
      ((aiTrack J env config).run (aiTrack J env config).init
        ((operations J env zk kernel config history).map Prod.snd)) :=
  Kit.related_run (allLinear_lives hJ at_init hd) at_init

/-- The next process starts from what is readable. -/
theorem run_restart (hJ : J.RejectsTorn) {history : List Life}
    (hd : (((lives J env zk kernel config).run (lives J env zk kernel config).init
      history).threads.shared.minted.map Prod.snd).Nodup)
    (htext : ∃ text, ((lives J env zk kernel config).run (lives J env zk kernel config).init
      history).threads.shared.disk.getD [] = Kit.Utf8.encode text)
    {es : List Event}
    (hlog : ((aiTrack J env config).run (aiTrack J env config).init ((operations J env zk kernel
      config history).map Prod.snd)).log.readable = es)
    (kernel' : RegistryState) (config' : Config) (is : List Life) :
    let m := lives J env zk kernel config
    let s := (m.run m.init history).threads
    m.run m.init (history ++ .restart kernel' config' :: is) =
      m.run ⟨true, { s.shared with kernel := kernel', ai := replay es, config := config' },
        fun id => (s.thread id).stopped⟩ is := by
  intro m s
  obtain ⟨text, ht⟩ := htext
  have hload : load J s.shared.disk = .ok (replay es) :=
    hlog ▸ load_of_stands hJ (at_run hJ hd).stands ht
  rw [Kit.Machine.run_append, Kit.Machine.run_cons]
  show m.run ((m.run m.init history).restart J kernel' config') is = _
  rw [Lives.restart, hload]

theorem operations_append (before after : List Life) :
    operations J env zk kernel config (before ++ after) =
      operations J env zk kernel config before ++ (aiView J env).points
        (lives J env zk kernel config) ((lives J env zk kernel config).run
          (lives J env zk kernel config).init before) after :=
  Kit.View.points_append _ _ _ _ _

end Histories

/-- Challenges and submissions of the AI track, in any interleaving of their moves with each other
and with those of the ZK track, through any number of restarts and with appends that stop after any
of their bytes, as long as no nonce is minted twice: there is an order of operations, each done at
once and at most one for a handler, that leads to the same store and to the same file. A restart is
one of them, and takes the store to what is readable of all that was appended. A handler that got
past the checks of its request, and answered other than with a failure of the server, has its
operation there after the operations that had been done when it began, with the reply that it
gave. -/
theorem ai_track_linearizable {J : SerdeJson} (hJ : J.RejectsTorn) (env : AiEnv) (zk : ZkEnv)
    (kernel : RegistryState) (config : Config) (history : List Life)
    (hd : (((lives J env zk kernel config).run (lives J env zk kernel config).init
      history).threads.shared.minted.map Prod.snd).Nodup) :
    let m := lives J env zk kernel config
    let w := m.run m.init
    let ops := operations J env zk kernel config
    let track := aiTrack J env config
    let k := track.run track.init ((ops history).map Prod.snd)
    (w history).threads.shared.ai = k.ai ∧
    ((∃ text, (w history).threads.shared.disk.getD [] = Kit.Utf8.encode text) →
      load J (w history).threads.shared.disk = .ok (replay k.log.readable)) ∧
    ((ops history).filterMap Prod.fst).Nodup ∧
    ∀ before after id call reply, history = before ++ after →
      ((w before).threads.thread id).call? = some call →
      (w history).threads.thread id = .answered reply → reply.status ≠ 500 →
      ∃ mid op post, ops history = ops before ++ mid ++ (some id, .op op) :: post ∧
        op.call = call ∧
        track.reply (track.run track.init ((ops before ++ mid).map Prod.snd)) (.op op) =
          some reply := by
  intro m w ops track k
  have hat : (w history).At J env k := at_run hJ hd
  refine ⟨hat.ai.symm, ?_, Kit.points_nodup (allLinear_lives hJ at_init hd) at_init, ?_⟩
  · rintro ⟨text, ht⟩
    exact load_of_stands hJ hat.stands ht
  rintro before after id call reply rfl hcall hans hstatus
  have hrun : m.run (w before) after = w (before ++ after) := (Kit.Machine.run_append _ _ _ _).symm
  have hafter : ((m.run (w before) after).threads.shared.minted.map Prod.snd).Nodup := hrun ▸ hd
  have hbefore : (w before).At J env (track.run track.init ((ops before).map Prod.snd)) :=
    at_run hJ (nodup_before hafter)
  have hsettled := Kit.settled_run (allLinear_lives hJ hbefore hafter) hbefore
    (awaits_life J env zk kernel config call) (Phase.awaits_of_call hcall)
  have hthread : (aiView J env).thread (w (before ++ after)) id = .answered reply := hans
  rw [hrun, hthread] at hsettled
  rcases hsettled with h500 | ⟨mid, o, post, heq, ⟨op, rfl, hop⟩, howes⟩
  · exact absurd h500 hstatus
  · refine ⟨mid, op, post, ?_, hop, ?_⟩
    · rw [List.append_assoc, ← heq]
      exact operations_append before after
    · rcases howes with hreply | h500
      · rw [List.map_append, Kit.Machine.run_append]
        exact hreply
      · exact absurd h500 hstatus

/-- A challenge, and one whose line stops after five bytes. -/
def tornStart : List Life :=
  [.turn 0 (.newChallenge untieredQuery), .turn 0 (.mint 7 0), .turn 0 (.record 1000 .written),
    .turn 1 (.newChallenge untieredQuery), .turn 1 (.mint 8 0),
    .turn 1 (.record 1500 (.failed (some 5)))]

/-- The next process gets a run for the first of them. -/
def raced : List Life :=
  [.restart Kernel.init (oneWin (.ofNat 32 1)), .turn 2 (.submit untieredQuery moeBody)]

/-- Handler 3 gets another, and both pass their checks; handler 3 is the first to commit. -/
def overtaken : List Life :=
  [.turn 2 (.check 2000), .turn 3 (.submit untieredQuery moeBody), .turn 3 (.check 2000),
    .turn 2 (.context none), .turn 3 (.context none), .turn 2 (.verify none),
    .turn 3 (.verify none), .turn 3 (.commit 3000 .written ""), .turn 2 (.commit 4000 .written "")]

def overtakenRequest : AiRequest :=
  ⟨7, .canonicalMoe, ⟨"7", "host", "0.1.0", 1, [⟨0, ""⟩], some "canonical-moe"⟩, [0], [[0]]⟩

def tornLives (history : List Life) : Lives :=
  (lives .compact scaling (provesOnly "7") Kernel.init (oneWin (.ofNat 32 1))).run
    (lives .compact scaling (provesOnly "7") Kernel.init (oneWin (.ofNat 32 1))).init history

def tornOperations (history : List Life) : List (Option ℕ × TrackOp) :=
  operations .compact scaling (provesOnly "7") Kernel.init (oneWin (.ofNat 32 1)) history

def tornTrack : Kit.Spec AiTrack TrackOp (Option Reply) :=
  aiTrack .compact scaling (oneWin (.ofNat 32 1))

theorem disk_tornStart : (tornLives tornStart).threads.shared.disk =
    append .compact (.failed (some 5))
      (append .compact .written none (.challenge 7 ⟨1000, none⟩)) (.challenge 8 ⟨1500, none⟩) := rfl

theorem text_tornStart : ∃ text, (tornLives tornStart).threads.shared.disk.getD [] =
    Kit.Utf8.encode text := by
  rw [disk_tornStart]
  refine text_append (text_append ⟨[], rfl⟩ nofun) ?_
  intro n hn
  cases hn
  exact ⟨['{', '"', 'e', 'v', '"'], by decide⟩

/-- After the restart, the first challenge is pending. -/
theorem run_tornStart (is : List Life) :
    tornLives (tornStart ++ .restart Kernel.init (oneWin (.ofNat 32 1)) :: is) =
      (lives .compact scaling (provesOnly "7") Kernel.init (oneWin (.ofNat 32 1))).run
        ⟨true, { (tornLives tornStart).threads.shared with
            kernel := Kernel.init
            ai := replay [.challenge 7 ⟨1000, none⟩]
            config := oneWin (.ofNat 32 1) },
          fun id => ((tornLives tornStart).threads.thread id).stopped⟩ is := by
  have hlog : (tornTrack.run tornTrack.init ((tornOperations tornStart).map
      Prod.snd)).log.readable = [.challenge 7 ⟨1000, none⟩] := by decide +kernel
  exact run_restart compact_rejectsTorn (by decide +kernel) text_tornStart hlog _ _ is

theorem ai_track_linearizable_overtaken :
    ∃ mid op post, tornOperations (tornStart ++ raced ++ overtaken) =
      tornOperations (tornStart ++ raced) ++ mid ++ (some 2, .op op) :: post ∧
      op.call = .run overtakenRequest ∧
      tornTrack.reply (tornTrack.run tornTrack.init
        ((tornOperations (tornStart ++ raced) ++ mid).map Prod.snd)) (.op op) =
          some (bad "nonce-used") := by
  have hcall : ((tornLives (tornStart ++ raced)).threads.thread 2).call? =
      some (.run overtakenRequest) := by
    rw [raced, run_tornStart]
    rfl
  have hanswer : (tornLives (tornStart ++ raced ++ overtaken)).threads.thread 2 =
      .answered (bad "nonce-used") := by
    rw [raced, List.append_assoc, List.cons_append, run_tornStart]
    rfl
  have hd : ((tornLives (tornStart ++ raced ++ overtaken)).threads.shared.minted.map
      Prod.snd).Nodup := by
    rw [raced, List.append_assoc, List.cons_append, run_tornStart]
    decide +kernel
  rw [tornLives] at hcall hanswer hd
  obtain ⟨-, -, -, hops⟩ := ai_track_linearizable compact_rejectsTorn scaling (provesOnly "7")
    Kernel.init (oneWin (.ofNat 32 1)) (tornStart ++ raced ++ overtaken) hd
  unfold tornOperations tornTrack
  exact hops (tornStart ++ raced) overtaken 2 (.run overtakenRequest) (bad "nonce-used") rfl hcall
    hanswer (by decide)

end Registry
end Nockmark
