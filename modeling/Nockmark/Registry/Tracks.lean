import Nockmark.Kit.Erase
import Nockmark.Registry.Fallbacks

/-!
# Registry.Tracks

Two tracks on one server.

Both tracks mint their nonces in the kernel, and nothing else is shared: the ZK track lives in the
kernel, and the AI track in the AI store and its log. So the AI track cannot tell whether there is
any ZK traffic, or what state the kernel is in; and the kernel and all other handlers cannot tell
whether there is any AI submission. They can tell whether there are AI challenges: a nonce that one
of them mints stands in the kernel, and a ZK run can be submitted for it.

* `Route`: what a handler was asked for. `Phase.On`: its phases.
* `tracks_independent`: the traffic that can be erased from a schedule.
-/

namespace Nockmark
namespace Registry

open Kernel (RegistryState)

inductive Route where
  | zk
  | aiChallenge
  | aiRun
  deriving DecidableEq

/-- The route that a request takes (`new_challenge` and `submit_run` branch on the track). -/
def Turn.route? : Turn → Option Route
  | .newChallenge q => some (if isAiTrack q then .aiChallenge else .zk)
  | .submit q _ => some (if isAiTrack q then .aiRun else .zk)
  | _ => none

def Turn.On (r : Route) (t : Turn) : Prop := ∀ r', t.route? = some r' → r' = r

/-- The phases of a handler with a route. -/
def Phase.On (r : Route) : Phase → Prop
  | .minting q _ _ => (if isAiTrack q then Route.aiChallenge else .zk) = r
  | .recording _ _ _ _ => r = .aiChallenge
  | .poking _ _ => r = .zk
  | .checking _ => r = .aiRun
  | .preparing _ _ => r = .aiRun
  | .verifying _ _ _ _ => r = .aiRun
  | _ => True

/-- What the AI track writes, and what it reads besides. -/
def aiPart (s : Server) : AiStore × Disk × List Event × List Issue × List Evidence × Config :=
  (s.ai, s.disk, s.log, s.issued, s.evidence, s.config)

def kernelPart (s : Server) : RegistryState × Config := (s.kernel, s.config)

section Moves

variable {J : SerdeJson} {env : AiEnv} {zk : ZkEnv} {id : ℕ} {r : Route} {s s' : Server}
  {p : Phase} {t : Turn}

theorem on_newChallenge {q : Query} (h : (Turn.newChallenge q).On r) :
    (newChallenge env q).On r := by
  unfold newChallenge
  split
  · trivial
  · exact h _ rfl

theorem on_submit {cfg : Config} {q : Query} {body : Body} (h : (Turn.submit q body).On r) :
    (submit env zk cfg q body).On r := by
  have hr := (h _ rfl).symm
  unfold submit
  split
  · rename_i hq
    rw [if_pos hq] at hr
    split
    · trivial
    · split
      · trivial
      · exact hr
  · rename_i hq
    rw [if_neg hq] at hr
    split
    · trivial
    · exact hr

theorem on_step (hp : p.On r) (ht : t.On r) : (handlerStep J env zk id s p t).2.On r := by
  have hm := handlerMove_step J env zk id s p t
  generalize handlerStep J env zk id s p t = next at hm
  cases hm with
  | stay => exact hp
  | hangUp => trivial
  | newChallenge q => exact on_newChallenge ht
  | submit q body => exact on_submit ht
  | mint q statement tier eny now =>
    simp only [Server.mint, Kernel.mintChallenge_eq]
    split
    · rename_i hq
      rw [Phase.On, if_pos hq] at hp
      exact hp.symm
    · trivial
  | record q statement tier nonce nowMs a =>
    cases a <;> trivial
  | poke nonce sub eny now =>
    unfold Server.poke
    split <;> trivial
  | check req nowMs =>
    unfold check
    split
    · trivial
    · exact hp
  | context req target error =>
    cases error with
    | none => exact hp
    | some e => trivial
  | verify req target win blob rest accepted joinError =>
    simp only [verifyWin]
    split
    · trivial
    · split
      · trivial
      · exact hp
  | commit req target accepted nowMs a ioError =>
    unfold Server.commit
    split <;> trivial

/-! ### The AI track and the kernel -/

theorem aiPart_of_zk (hp : p.On .zk) : aiPart (handlerStep J env zk id s p t).1 = aiPart s := by
  have hm := handlerMove_step J env zk id s p t
  generalize handlerStep J env zk id s p t = next at hm
  cases hm with
  | mint q statement tier eny now =>
    simp only [Server.mint, Kernel.mintChallenge_eq]
    rfl
  | poke nonce sub eny now =>
    unfold Server.poke
    split <;> rfl
  | record => cases hp
  | commit => cases hp
  | _ => rfl

/-- A mint hands out the entropy, whatever the kernel's state. -/
theorem aiPart_of_ai (hr : r ≠ .zk) (hp : p.On r) (ht : t.On r) (h : aiPart s = aiPart s') :
    aiPart (handlerStep J env zk id s p t).1 = aiPart (handlerStep J env zk id s' p t).1 ∧
      (handlerStep J env zk id s p t).2 = (handlerStep J env zk id s' p t).2 := by
  obtain ⟨⟨kernel, ai, disk, config⟩, minted, log, issued, evidence⟩ := s
  obtain ⟨⟨kernel', ai', disk', config'⟩, minted', log', issued', evidence'⟩ := s'
  simp only [aiPart, Prod.mk.injEq] at h
  obtain ⟨rfl, rfl, rfl, rfl, rfl, rfl⟩ := h
  cases p with
  | idle => cases t <;> exact ⟨rfl, rfl⟩
  | minting q statement tier =>
    cases t with
    | mint eny now =>
      simp only [handlerStep, Server.mint, Kernel.mintChallenge_eq]
      exact ⟨rfl, trivial⟩
    | _ => exact ⟨rfl, rfl⟩
  | recording q statement tier nonce =>
    cases t with
    | record nowMs a => cases a <;> exact ⟨rfl, rfl⟩
    | _ => exact ⟨rfl, rfl⟩
  | poking => exact absurd hp hr
  | checking => cases t <;> exact ⟨rfl, rfl⟩
  | preparing => cases t <;> exact ⟨rfl, rfl⟩
  | verifying req target rest accepted =>
    cases rest with
    | nil =>
      cases t with
      | commit nowMs a ioError =>
        simp only [handlerStep, Server.commit]
        split <;> exact ⟨rfl, rfl⟩
      | _ => exact ⟨rfl, rfl⟩
    | cons => cases t <;> exact ⟨rfl, rfl⟩
  | answered => cases t <;> exact ⟨rfl, rfl⟩
  | gone => cases t <;> exact ⟨rfl, rfl⟩

theorem separates_ai (J : SerdeJson) (env : AiEnv) (zk : ZkEnv) (route : ℕ → Route) :
    Kit.Separates (handlers J env zk) aiPart (fun id => route id ≠ .zk)
      (fun id p => p.On (route id)) (fun id t => t.On (route id)) := by
  constructor
  · intro id s p t hp ht
    exact on_step hp ht
  · intro id s p t hid hp _
    rw [not_not.mp hid] at hp
    exact aiPart_of_zk hp
  · intro id s s' p t hid hp ht h
    exact aiPart_of_ai hid hp ht h

/-! ### The kernel and AI submissions -/

theorem kernelPart_of_aiRun (hp : p.On .aiRun) :
    kernelPart (handlerStep J env zk id s p t).1 = kernelPart s := by
  have hm := handlerMove_step J env zk id s p t
  generalize handlerStep J env zk id s p t = next at hm
  cases hm with
  | mint q statement tier eny now =>
    rw [Phase.On] at hp
    split at hp <;> cases hp
  | commit req target accepted nowMs a ioError =>
    unfold Server.commit
    split <;> rfl
  | record => cases hp
  | poke => cases hp
  | _ => rfl

/-- An AI challenge is answered from the configuration; it does not read the store. -/
theorem kernelPart_of_other (hr : r ≠ .aiRun) (hp : p.On r) (ht : t.On r)
    (h : kernelPart s = kernelPart s') :
    kernelPart (handlerStep J env zk id s p t).1 = kernelPart (handlerStep J env zk id s' p t).1 ∧
      (handlerStep J env zk id s p t).2 = (handlerStep J env zk id s' p t).2 := by
  obtain ⟨⟨kernel, ai, disk, config⟩, minted, log, issued, evidence⟩ := s
  obtain ⟨⟨kernel', ai', disk', config'⟩, minted', log', issued', evidence'⟩ := s'
  simp only [kernelPart, Prod.mk.injEq] at h
  obtain ⟨rfl, rfl⟩ := h
  cases p with
  | idle => cases t <;> exact ⟨rfl, rfl⟩
  | minting q statement tier =>
    cases t with
    | mint eny now =>
      simp only [handlerStep, Server.mint, Kernel.mintChallenge_eq]
      exact ⟨rfl, trivial⟩
    | _ => exact ⟨rfl, rfl⟩
  | recording q statement tier nonce =>
    cases t with
    | record nowMs a => cases a <;> exact ⟨rfl, rfl⟩
    | _ => exact ⟨rfl, rfl⟩
  | poking nonce sub =>
    cases t with
    | poke eny now =>
      simp only [handlerStep, Server.poke]
      split <;> exact ⟨rfl, rfl⟩
    | _ => exact ⟨rfl, rfl⟩
  | checking => exact absurd hp hr
  | preparing => exact absurd hp hr
  | verifying => exact absurd hp hr
  | answered => cases t <;> exact ⟨rfl, rfl⟩
  | gone => cases t <;> exact ⟨rfl, rfl⟩

theorem separates_kernel (J : SerdeJson) (env : AiEnv) (zk : ZkEnv) (route : ℕ → Route) :
    Kit.Separates (handlers J env zk) kernelPart (fun id => route id ≠ .aiRun)
      (fun id p => p.On (route id)) (fun id t => t.On (route id)) := by
  constructor
  · intro id s p t hp ht
    exact on_step hp ht
  · intro id s p t hid hp _
    rw [not_not.mp hid] at hp
    exact kernelPart_of_aiRun hp
  · intro id s s' p t hid hp ht h
    exact kernelPart_of_other hid hp ht h

end Moves

/-- In every interleaving, with whatever fails: erase any of the ZK handlers, and start from any
other kernel state, and the AI store, its log and what every other handler has come to are the same;
erase any of the AI submissions, and the kernel and what every other handler has come to are the
same. AI challenges cannot be erased for the ZK track, as both tracks mint in the one kernel. -/
theorem tracks_independent (J : SerdeJson) (env : AiEnv) (zk : ZkEnv)
    (kernel kernel' : RegistryState) (config : Config) (route : ℕ → Route)
    (schedule : List (ℕ × Turn)) (hroute : ∀ i ∈ schedule, i.2.On (route i.1)) (drop : ℕ → Bool) :
    let w := served J env zk kernel config schedule
    let kept := schedule.filter fun i => !drop i.1
    ((∀ id, drop id = true → route id = .zk) →
      let w' := served J env zk kernel' config kept
      aiPart w.shared = aiPart w'.shared ∧ ∀ id, route id ≠ .zk → w.thread id = w'.thread id) ∧
    ((∀ id, drop id = true → route id = .aiRun) →
      let w' := served J env zk kernel config kept
      w.shared.kernel = w'.shared.kernel ∧
        ∀ id, route id ≠ .aiRun → w.thread id = w'.thread id) := by
  intro w kept
  refine ⟨?_, ?_⟩
  · intro hdrop w'
    have h0 : Kit.Alike aiPart (fun id => route id ≠ .zk) (fun id p => Phase.On (route id) p)
        (served J env zk kernel config []) (served J env zk kernel' config []) :=
      ⟨rfl, fun _ _ => rfl, fun _ => trivial, fun _ => trivial⟩
    have h := Kit.erase_run (separates_ai J env zk route) (.boot kernel config)
      (fun id hid => not_not.mpr (hdrop id hid)) h0 hroute
    exact ⟨h.obs, h.thread⟩
  · intro hdrop w'
    have h0 : Kit.Alike kernelPart (fun id => route id ≠ .aiRun)
        (fun id p => Phase.On (route id) p) (served J env zk kernel config [])
        (served J env zk kernel config []) :=
      ⟨rfl, fun _ _ => rfl, fun _ => trivial, fun _ => trivial⟩
    have h := Kit.erase_run (separates_kernel J env zk route) (.boot kernel config)
      (fun id hid => not_not.mpr (hdrop id hid)) h0 hroute
    exact ⟨congrArg Prod.fst h.obs, h.thread⟩

/-- Handler 0 asks for an AI challenge, handler 1 for one of the ZK track, and handler 2 submits a
run for the nonce of handler 0. -/
def mixed : List (ℕ × Turn) :=
  [(0, .newChallenge untieredQuery), (1, .newChallenge fun _ => none), (1, .mint 5 0),
    (0, .mint 7 0), (0, .record 1000 .written), (2, .submit untieredQuery moeBody),
    (2, .check 2000)]

def mixedRoute : ℕ → Route
  | 0 => .aiChallenge
  | 1 => .zk
  | _ => .aiRun

theorem tracks_independent_mixed :
    aiPart (served .compact scaling (provesOnly "7") Kernel.init (oneWin (.ofNat 32 1))
      mixed).shared =
    aiPart (served .compact scaling (provesOnly "7") (Kernel.init.mint 5 0) (oneWin (.ofNat 32 1))
      (mixed.filter fun i => !(i.1 == 1))).shared := by
  have hroute : ∀ i ∈ mixed, i.2.On (mixedRoute i.1) := by
    simp [mixed, mixedRoute, Turn.On, Turn.route?, isAiTrack, untieredQuery]
  have hdrop : ∀ id, (id == 1) = true → mixedRoute id = .zk := by
    intro id hid
    rw [beq_iff_eq.mp hid]
    rfl
  exact ((tracks_independent .compact scaling (provesOnly "7") Kernel.init (Kernel.init.mint 5 0)
    (oneWin (.ofNat 32 1)) mixedRoute mixed hroute (· == 1)).1 hdrop).1

end Registry
end Nockmark
