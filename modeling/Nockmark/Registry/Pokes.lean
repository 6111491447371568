import Nockmark.Registry.Server

/-!
# Registry.Pokes

What the server pokes its kernel with: a mint, or the submission of a request that passed every
check. So what holds of a kernel after any such pokes holds of the kernel of a running server, in
every interleaving of its handlers.

* `HandlerPoke`: such a poke.
* `pokes_of_reach`: a server's kernel has been through handler pokes alone.
-/

namespace Nockmark
namespace Registry

open Kernel (RegistryState Poke mintCause submitCause)

inductive HandlerPoke (zk : ZkEnv) (k : UInt64) : Poke → Prop where
  | mint (eny now : Nat) : HandlerPoke zk k ⟨eny, now, mintCause⟩
  | submit {body : Except String RunSubmission} {nonce : UInt64} {sub : RunSubmission}
      {dat : Kernel.Noun} (eny now : Nat) (hv : validate zk k body = .ok (nonce, sub))
      (hd : submitCause nonce sub.hardware sub.proverVersion k sub.elapsedMs = some dat) :
      HandlerPoke zk k ⟨eny, now, dat⟩

/-- The time that the turn's poke reads satisfies `P`. -/
def Turn.Times (P : Nat → Prop) : Turn → Prop
  | .mint _ now => P now
  | .poke _ now => P now
  | _ => True

theorem Turn.times_true (t : Turn) : t.Times fun _ => True := by
  cases t <;> trivial

/-- A handler that is about to poke has validated its request. -/
def Phase.Validated (zk : ZkEnv) (k : UInt64) : Phase → Prop
  | .poking nonce sub => ∃ body, validate zk k body = .ok (nonce, sub)
  | _ => True

/-- What a move leaves of configuration and kernel, and of its handler. -/
structure KernelMove (zk : ZkEnv) (P : Nat → Prop) (s : Server) (r : Server × Phase) : Prop where
  config : r.1.config = s.config
  kernel : r.1.kernel = s.kernel ∨
    ∃ p, (HandlerPoke zk s.config.k p ∧ P p.now) ∧ r.1.kernel = Kernel.step s.kernel p
  validated : r.2.Validated zk s.config.k

section Moves

variable {J : SerdeJson} {env : AiEnv} {zk : ZkEnv} {P : Nat → Prop} {id : ℕ} {s : Server}

theorem KernelMove.keep {r : Server × Phase} (hs : r.1.config = s.config ∧ r.1.kernel = s.kernel)
    (hp : r.2.Validated zk s.config.k) : KernelMove zk P s r := ⟨hs.1, .inl hs.2, hp⟩

theorem pokeWith_state {α : Type} (k : RegistryState) (p : Poke)
    (read : List Kernel.Effect → Except Kernel.NockAppError α) :
    (Kernel.pokeWith k p read).2 = Kernel.step k p := by
  unfold Kernel.pokeWith Kernel.step
  cases Kernel.poke k p <;> rfl

theorem kernelMove_mint {eny now : Nat} (q : Query) (statement : Statement) (tier : Option Tier)
    (hP : P now) : KernelMove zk P s (s.mint id q statement tier eny now) := by
  have hk := pokeWith_state s.kernel ⟨eny, now, mintCause⟩ Kernel.mintedNonce
  unfold Server.mint
  split
  · rename_i e kernel h
    have hkernel : kernel = Kernel.step s.kernel ⟨eny, now, mintCause⟩ := by
      rw [← hk]; exact (congrArg Prod.snd h).symm
    exact ⟨rfl, .inr ⟨_, ⟨.mint eny now, hP⟩, hkernel⟩, trivial⟩
  · rename_i nonce kernel h
    have hkernel : kernel = Kernel.step s.kernel ⟨eny, now, mintCause⟩ := by
      rw [← hk]; exact (congrArg Prod.snd h).symm
    refine ⟨rfl, .inr ⟨_, ⟨.mint eny now, hP⟩, hkernel⟩, ?_⟩
    show Phase.Validated zk s.config.k (if _ then _ else _)
    split <;> trivial

theorem kernelMove_poke {eny now : Nat} {nonce : UInt64} {sub : RunSubmission}
    (hv : Phase.Validated zk s.config.k (.poking nonce sub)) (hP : P now) :
    KernelMove zk P s (s.poke zk nonce sub eny now) := by
  obtain ⟨body, hv⟩ := hv
  unfold Server.poke Kernel.submitRun
  cases hd : submitCause nonce sub.hardware sub.proverVersion s.config.k sub.elapsedMs with
  | none => exact .keep ⟨rfl, rfl⟩ trivial
  | some dat =>
    exact ⟨rfl, .inr ⟨_, ⟨.submit eny now hv hd, hP⟩, pokeWith_state _ _ _⟩, trivial⟩

theorem kernelMove_record (q : Query) (statement : Statement) (tier : Option Tier)
    (nonce nowMs : UInt64) (a : Append) :
    KernelMove zk P s (s.record J env q statement tier nonce nowMs a) := by
  unfold Server.record
  cases a <;> exact .keep ⟨rfl, rfl⟩ trivial

theorem kernelMove_commit (req : AiRequest) (target : Tock.Bytes32) (accepted : List Accepted)
    (nowMs : UInt64) (a : Append) (ioError : String) :
    KernelMove zk P s (s.commit J id req target accepted nowMs a ioError) := by
  unfold Server.commit
  split <;> exact .keep ⟨rfl, rfl⟩ trivial

theorem validated_submit (q : Query) (body : Body) :
    (submit env zk s.config q body).Validated zk s.config.k := by
  unfold submit
  split
  · split
    · trivial
    · split <;> trivial
  · split
    · trivial
    · rename_i hv; exact ⟨_, hv⟩

theorem validated_newChallenge (q : Query) :
    (newChallenge env q).Validated zk s.config.k := by
  unfold newChallenge
  split <;> trivial

theorem validated_check (req : AiRequest) (nowMs : UInt64) :
    (check s.toAppState req nowMs).Validated zk s.config.k := by
  unfold check
  split <;> trivial

theorem validated_prepare (req : AiRequest) (target : Tock.Bytes32) (error : Option String) :
    (prepare req target error).Validated zk s.config.k := by
  cases error <;> trivial

theorem validated_verifyWin (req : AiRequest) (target : Tock.Bytes32) (win : AiWinSubmission)
    (blob : List UInt8) (rest : List (AiWinSubmission × List UInt8)) (accepted : List Accepted)
    (joinError : Option String) :
    (verifyWin env req target win blob rest accepted joinError).Validated zk s.config.k := by
  simp only [verifyWin]
  split
  · trivial
  · split <;> trivial

theorem HandlerMove.kernelMove {p : Phase} {t : Turn} {r : Server × Phase}
    (h : HandlerMove J env zk id s p t r) (hp : p.Validated zk s.config.k) (ht : t.Times P) :
    KernelMove zk P s r := by
  cases h with
  | stay => exact .keep ⟨rfl, rfl⟩ hp
  | hangUp => exact .keep ⟨rfl, rfl⟩ trivial
  | newChallenge q => exact .keep ⟨rfl, rfl⟩ (validated_newChallenge q)
  | submit q body => exact .keep ⟨rfl, rfl⟩ (validated_submit q body)
  | mint q statement tier => exact kernelMove_mint q statement tier ht
  | record q statement tier nonce nowMs a =>
    exact kernelMove_record q statement tier nonce nowMs a
  | poke => exact kernelMove_poke hp ht
  | check req nowMs => exact .keep ⟨rfl, rfl⟩ (validated_check req nowMs)
  | context req target error => exact .keep ⟨rfl, rfl⟩ (validated_prepare req target error)
  | verify req target win blob rest accepted joinError =>
    exact .keep ⟨rfl, rfl⟩ (validated_verifyWin req target win blob rest accepted joinError)
  | commit req target accepted nowMs a ioError =>
    exact kernelMove_commit req target accepted nowMs a ioError

theorem kernelMove_step {p : Phase} (hp : p.Validated zk s.config.k) {t : Turn}
    (ht : t.Times P) : KernelMove zk P s (handlerStep J env zk id s p t) :=
  (handlerMove_step J env zk id s p t).kernelMove hp ht

end Moves

/-- Whatever the handlers of a server do, and in any order, its kernel has seen handler pokes
alone. -/
theorem pokes_of_reach {J : SerdeJson} {env : AiEnv} {zk : ZkEnv} {P : Nat → Prop} {config : Config}
    {w : Kit.Threads Server Phase}
    (h : ((handlers J env zk).threads (.boot Kernel.init config)).Reach
      (fun _ i => i.2.Times P) w) :
    Kernel.kernel.Reach (fun _ p => HandlerPoke zk config.k p ∧ P p.now) w.shared.kernel := by
  let I (s : Server) : Prop := s.config = config ∧
    Kernel.kernel.Reach (fun _ p => HandlerPoke zk config.k p ∧ P p.now) s.kernel
  let L (_ : ℕ) (_ : Server) (p : Phase) : Prop := p.Validated zk config.k
  have hw : Kit.Program.Holds I L w := by
    refine h.inv ⟨⟨rfl, .init⟩, fun _ => trivial⟩ ?_
    intro w i hw ht
    obtain ⟨hc, hr⟩ := hw.shared
    have hm : KernelMove zk P w.shared (handlerStep J env zk i.1 w.shared (w.thread i.1) i.2) :=
      kernelMove_step (by rw [hc]; exact hw.thread i.1) ht
    have hp' := hm.validated
    rw [hc] at hp'
    refine hw.move ⟨⟨hm.config.trans hc, ?_⟩, hp'⟩ fun _ _ hp => hp
    rcases hm.kernel with hk | ⟨p, hp, hk⟩
    · exact hk ▸ hr
    · exact hk ▸ .step hr (hc ▸ hp)
  exact hw.shared.2

end Registry
end Nockmark
